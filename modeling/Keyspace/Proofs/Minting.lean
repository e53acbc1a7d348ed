import Keyspace.Version

/-!
# Minted versions

A version is minted from the clock, but it must be newer than every version minted
before, whatever the clock does.  So the mint keeps a counter, the version that it
minted last, and takes the higher one of the reading and the next count.

There are two groups.

* One version.  It is above the counter, unless the counter has come to the end of
  its range (`Clock.lt_mint`), and it is not behind the clock, unless the reading
  does not fit beside the low byte (`Clock.le_mintMicros_mint`).
* A run of the mint.  `mintAll` lists the versions minted at a list of readings, and
  `mintAll_increasing` is the result.
-/

namespace Keyspace

variable {clock : Clock} {last version : Version} {clocks : List Clock}

/-! ## One version -/

/-- The version after which a counter wraps around. -/
def Version.highest : Version :=
  .ofNat (UInt64.size - 1)

/-- The next version is a higher one, unless there is none. -/
theorem Version.lt_succ (h : version ≠ Version.highest) : version < version + 1 := by
  have hroom : version.toNat ≠ UInt64.size - 1 := by
    intro hend
    exact h (UInt64.toNat_inj.mp hend)
  have hbound : version.toNat < UInt64.size := version.toNat_lt
  rw [UInt64.lt_iff_toNat_lt, UInt64.toNat_add]
  simp only [UInt64.reduceToNat, UInt64.size] at *
  omega

namespace Clock

/-- Microseconds since the epoch in a 64-bit word. -/
def word (clock : Clock) : UInt64 :=
  .ofNat clock.micros

/-- A minted version is the reading, shifted, or the next count, whichever is higher. -/
theorem mint_eq (clock : Clock) (last : Version) :
    clock.mint last = if clock.word <<< 8 ≤ last + 1 then last + 1 else clock.word <<< 8 := rfl

/-- A minted version is above the counter. -/
theorem lt_mint (clock : Clock) (hlast : last ≠ Version.highest) : last < clock.mint last := by
  have hnext := Version.lt_succ hlast
  rw [mint_eq]
  split
  · exact hnext
  · rename_i hle
    exact UInt64.lt_trans hnext (UInt64.not_le.mp hle)

theorem le_mint (clock : Clock) (last : Version) : clock.word <<< 8 ≤ clock.mint last := by
  rw [mint_eq]
  split
  · assumption
  · exact UInt64.le_refl _

/-- A minted version is not behind the clock. -/
theorem le_mintMicros_mint (h : clock.word.toNat * 256 < UInt64.size) (last : Version) :
    clock.word.toNat ≤ (clock.mint last).mintMicros := by
  -- nothing is shifted out of the word
  have hshift : (clock.word <<< 8).toNat = clock.word.toNat * 256 := by
    rw [UInt64.toNat_shiftLeft, Nat.shiftLeft_eq]
    simp only [UInt64.reduceToNat, Nat.reduceMod, Nat.reducePow]
    exact Nat.mod_eq_of_lt h
  have hle : clock.word.toNat * 256 ≤ (clock.mint last).toNat := by
    rw [← hshift]
    exact UInt64.le_iff_toNat_le.mp (clock.le_mint last)
  rw [Version.mintMicros, UInt64.toNat_shiftRight, Nat.shiftRight_eq_div_pow]
  simp only [UInt64.reduceToNat, Nat.reduceMod, Nat.reducePow]
  omega

end Clock

/-! ## A run of the mint -/

/-- The versions minted at the readings of a clock, one after the other. -/
def mintAll (last : Version) : List Clock → List Version
  | [] => []
  | clock :: rest => clock.mint last :: mintAll (clock.mint last) rest

/-- Until the counter comes to the end of its range, every version is above the
counter at the start and above all versions before it. -/
theorem pairwise_mintAll (hlast : last ≠ Version.highest)
    (h : ∀ version ∈ (mintAll last clocks).dropLast, version ≠ Version.highest) :
    (last :: mintAll last clocks).Pairwise (· < ·) := by
  induction clocks generalizing last with
  | nil => exact List.pairwise_singleton _ _
  | cons clock rest ih =>
    have hlt := clock.lt_mint hlast
    have htail : (clock.mint last :: mintAll (clock.mint last) rest).Pairwise (· < ·) := by
      cases rest with
      | nil => exact List.pairwise_singleton _ _
      | cons next others =>
        -- the first version is the counter at which the others start
        have hdrop : ∀ version ∈
            clock.mint last :: (mintAll (clock.mint last) (next :: others)).dropLast,
            version ≠ Version.highest := h
        rw [List.forall_mem_cons] at hdrop
        exact ih hdrop.1 hdrop.2
    refine List.pairwise_cons.mpr ⟨fun version hversion => ?_, htail⟩
    rcases List.mem_cons.mp hversion with rfl | hlater
    · exact hlt
    · exact UInt64.lt_trans hlt (List.rel_of_pairwise_cons htail hlater)

/-- No version is behind the reading at which it is minted. -/
theorem le_mintMicros_of_mem {pair : Clock × Version}
    (hpair : pair ∈ clocks.zip (mintAll last clocks)) (h : pair.1.word.toNat * 256 < UInt64.size) :
    pair.1.word.toNat ≤ pair.2.mintMicros := by
  induction clocks generalizing last with
  | nil => cases hpair
  | cons clock rest ih =>
    rw [mintAll, List.zip_cons_cons] at hpair
    rcases List.mem_cons.mp hpair with rfl | hlater
    · exact Clock.le_mintMicros_mint h last
    · exact ih hlater

/-- Whatever the clock does, the versions minted from a counter that starts at 0 are
higher and higher, and none of them is 0, as long as the counter has not come to the
end of its range.  The versions whose clock readings fit beside the low byte are not
behind the clock. -/
theorem mintAll_increasing (clocks : List Clock) :
    ((∀ version ∈ (mintAll 0 clocks).dropLast, version ≠ Version.highest) →
      (mintAll 0 clocks).Pairwise (· < ·) ∧ ∀ version ∈ mintAll 0 clocks, version ≠ 0) ∧
    ∀ pair ∈ clocks.zip (mintAll 0 clocks), pair.1.word.toNat * 256 < UInt64.size →
      pair.1.word.toNat ≤ pair.2.mintMicros := by
  refine ⟨fun h => ?_, fun pair hpair => le_mintMicros_of_mem hpair⟩
  obtain ⟨habove, hpairwise⟩ := List.pairwise_cons.mp (pairwise_mintAll (by decide) h)
  refine ⟨hpairwise, fun version hversion hzero => ?_⟩
  have hpos := habove version hversion
  rw [hzero] at hpos
  exact UInt64.lt_irrefl 0 hpos

/-- A clock that stands still, runs backwards, is set before the epoch, and is then so
late that the shift loses its highest bit. -/
theorem mintAll_increasing_wayward :
    let clocks : List Clock := [⟨5⟩, ⟨5⟩, ⟨3⟩, ⟨-7⟩, ⟨72057594037927937⟩, ⟨6⟩]
    mintAll 0 clocks = [1280, 1281, 1282, 1283, 1284, 1536] ∧
      (mintAll 0 clocks).Pairwise (· < ·) ∧ (∀ version ∈ mintAll 0 clocks, version ≠ 0) ∧
      ∀ pair ∈ clocks.zip (mintAll 0 clocks), pair.1.word.toNat * 256 < UInt64.size →
        pair.1.word.toNat ≤ pair.2.mintMicros := by
  intro clocks
  have hall : (mintAll 0 clocks).dropLast.all (· ≠ Version.highest) = true := by decide
  have hrange : ∀ version ∈ (mintAll 0 clocks).dropLast, version ≠ Version.highest :=
    fun version hversion => of_decide_eq_true (List.all_eq_true.mp hall version hversion)
  obtain ⟨hincreasing, hclock⟩ := mintAll_increasing clocks
  obtain ⟨hpairwise, hpositive⟩ := hincreasing hrange
  exact ⟨by decide, hpairwise, hpositive, hclock⟩

end Keyspace
