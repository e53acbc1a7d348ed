import Keyspace.Expiry

/-!
# Deadlines in closed form

The way from a time to live to a deadline has four steps, and each of them stops where a
word ends: seconds become milliseconds, the age of the version is taken, the age is taken
off, and what is left, but at least a millisecond, is added to the time.  This module says
where the way leads.

* A deadline that counts from the mint time of its version is a fixed distance away from
  it, unless that is over (`ExpiryMode.deadline_of_minted`).
* Every other deadline is as far away from the clock (`ExpiryMode.deadline_of_clock`).

`ExpiryMode.deadline_closed_form` is both of them together with what follows.
-/

namespace Keyspace

/-- The milliseconds in a unit. -/
def TtlUnit.length : TtlUnit → Nat
  | .seconds => 1000
  | .millis => 1

/-- A time to live in milliseconds, as many of them as fit a word. -/
def TtlUnit.lifetime (unit : TtlUnit) (ttl : Nat) : Millis :=
  min (UInt64.size - 1) (ttl * unit.length)

/-! ## Arithmetic -/

section Arithmetic

variable {bound now minted time lifetime : Nat}

/-- To take off the age and to start from the mint time is one and the same, and an end of
the range that has been reached on the way is reached in the end. -/
theorem min_add_sub_age (hminted : minted ≤ now) (hlifetime : min bound time = lifetime) :
    min bound (now + max (time - (now - minted)) 1) =
      min bound (max (now + 1) (minted + lifetime)) := by
  omega

theorem min_add_time (hlifetime : min bound time = lifetime) :
    min bound (now + max time 1) = min bound (now + max 1 lifetime) := by
  omega

theorem saturate_eq (millis : Nat) : saturate millis = min (UInt64.size - 1) millis :=
  Nat.min_comm _ _

theorem saturate_mono {first second : Nat} (h : first ≤ second) :
    saturate first ≤ saturate second :=
  Nat.le_min.mpr ⟨Nat.le_trans (Nat.min_le_left _ _) h, Nat.min_le_right _ _⟩

end Arithmetic

namespace TtlUnit

/-- Beyond the end of a word it makes no difference how long a time to live is. -/
theorem min_toMillis (unit : TtlUnit) (ttl : Nat) :
    min (UInt64.size - 1) (unit.toMillis ttl) = unit.lifetime ttl := by
  cases unit with
  | seconds => rw [toMillis, saturate_eq, ← Nat.min_assoc, Nat.min_self, lifetime, length]
  | millis => rw [lifetime, length, Nat.mul_one, toMillis]

theorem toMillis_mono (unit : TtlUnit) {ttl longer : Nat} (h : ttl ≤ longer) :
    unit.toMillis ttl ≤ unit.toMillis longer := by
  cases unit with
  | seconds => exact saturate_mono (Nat.mul_le_mul_right _ h)
  | millis => exact h

end TtlUnit

/-! ## Deadlines -/

namespace ExpiryMode

variable {mode : ExpiryMode} {now : Millis} {version : Version}

/-- The deadline of a version that has been minted by now. -/
theorem deadline_of_minted (hmode : mode = .versionRelative) (hversion : version ≠ 0)
    (hminted : version.mintMicros / 1000 ≤ now) (ttl : Nat) (unit : TtlUnit) :
    mode.deadline now ttl unit version =
      min (UInt64.size - 1) (max (now + 1) (version.mintMicros / 1000 + unit.lifetime ttl)) := by
  subst hmode
  have hleft : timeLeft .versionRelative now ttl unit version =
      unit.toMillis ttl - (now - version.mintMicros / 1000) := if_neg hversion
  rw [deadline, hleft, saturate_eq]
  exact min_add_sub_age hminted (unit.min_toMillis ttl)

/-- The deadline in all other cases. -/
theorem deadline_of_clock
    (h : mode = .absolute ∨ version = 0 ∨ now < version.mintMicros / 1000) (ttl : Nat)
    (unit : TtlUnit) :
    mode.deadline now ttl unit version =
      min (UInt64.size - 1) (now + max 1 (unit.lifetime ttl)) := by
  have hleft : mode.timeLeft now ttl unit version = unit.toMillis ttl := by
    cases mode with
    | absolute => rfl
    | versionRelative =>
      by_cases hversion : version = 0
      · exact if_pos hversion
      · have hminted := (h.resolve_left nofun).resolve_left hversion
        rw [timeLeft, if_neg hversion, Nat.sub_eq_zero_of_le (Nat.le_of_lt hminted), Nat.sub_zero]
  rw [deadline, hleft, saturate_eq]
  exact min_add_time (unit.min_toMillis ttl)

/-- A computed deadline lies ahead exactly as long as the last instant that there is does. -/
theorem lt_deadline_iff (mode : ExpiryMode) (now : Millis) (ttl : Nat) (unit : TtlUnit)
    (version : Version) : now < mode.deadline now ttl unit version ↔ now < horizon := by
  have hpos : 0 < max (mode.timeLeft now ttl unit version) 1 :=
    Nat.lt_of_lt_of_le Nat.zero_lt_one (Nat.le_max_right _ _)
  rw [deadline, saturate, Nat.lt_min]
  exact and_iff_right (Nat.lt_add_of_pos_right hpos)

theorem lt_deadline (h : now < horizon) (mode : ExpiryMode) (ttl : Nat) (unit : TtlUnit)
    (version : Version) : now < mode.deadline now ttl unit version :=
  (mode.lt_deadline_iff now ttl unit version).mpr h

theorem timeLeft_mono (mode : ExpiryMode) (now : Millis) (unit : TtlUnit) (version : Version)
    {ttl longer : Nat} (h : ttl ≤ longer) :
    mode.timeLeft now ttl unit version ≤ mode.timeLeft now longer unit version := by
  have hmillis := unit.toMillis_mono h
  cases mode with
  | absolute => exact hmillis
  | versionRelative =>
    by_cases hversion : version = 0
    · rw [timeLeft, timeLeft, if_pos hversion, if_pos hversion]
      exact hmillis
    · rw [timeLeft, timeLeft, if_neg hversion, if_neg hversion]
      exact Nat.sub_le_sub_right hmillis _

/-- A longer time to live leads to no earlier a deadline. -/
theorem deadline_mono (mode : ExpiryMode) (now : Millis) (unit : TtlUnit) (version : Version)
    {ttl longer : Nat} (h : ttl ≤ longer) :
    mode.deadline now ttl unit version ≤ mode.deadline now longer unit version := by
  have hleft := timeLeft_mono mode now unit version h
  refine saturate_mono (Nat.add_le_add_left (Nat.max_le.mpr ⟨?_, Nat.le_max_right _ _⟩) now)
  exact Nat.le_trans hleft (Nat.le_max_left _ _)

/-- The deadline of a time to live in closed form, before the last instant that there is.
A version that has been minted by now fixes the deadline, from which follows that it does
not matter when it is computed: at any two moments within the lifetime of the version, which
begins at its mint time, it comes out the same.  Otherwise it is as far away from the clock
as the time to live is long.  It is never in the past, and a longer time to live leads to
no earlier a deadline. -/
theorem deadline_closed_form (hnow : now < UInt64.size - 1) (mode : ExpiryMode) (ttl : Nat)
    (unit : TtlUnit) (version : Version) :
    let lifetime := min (UInt64.size - 1) (ttl * unit.length)
    let minted := version.mintMicros / 1000
    (mode = .versionRelative ∧ version ≠ 0 ∧ minted ≤ now →
      mode.deadline now ttl unit version =
        min (UInt64.size - 1) (max (now + 1) (minted + lifetime))) ∧
    (mode = .absolute ∨ version = 0 ∨ now < minted →
      mode.deadline now ttl unit version = min (UInt64.size - 1) (now + max 1 lifetime)) ∧
    now < mode.deadline now ttl unit version ∧
    (∀ longer, ttl ≤ longer →
      mode.deadline now ttl unit version ≤ mode.deadline now longer unit version) ∧
    (mode = .versionRelative ∧ version ≠ 0 →
      ∀ first second, minted ≤ first → first < minted + lifetime →
        minted ≤ second → second < minted + lifetime →
        mode.deadline first ttl unit version = mode.deadline second ttl unit version) := by
  intro lifetime minted
  refine ⟨fun ⟨hmode, hversion, hminted⟩ => deadline_of_minted hmode hversion hminted ttl unit,
    fun hclock => deadline_of_clock hclock ttl unit, lt_deadline hnow mode ttl unit version,
    fun longer hlonger => deadline_mono mode now unit version hlonger, ?_⟩
  rintro ⟨hmode, hversion⟩ first second hfirst hbefore hsecond hbefore'
  -- the floor of one millisecond is out of reach as long as the lifetime lasts
  have hfixed : ∀ {moment : Millis}, minted ≤ moment → moment < minted + lifetime →
      mode.deadline moment ttl unit version = min (UInt64.size - 1) (minted + lifetime) := by
    intro moment hmoment hlast
    rw [deadline_of_minted hmode hversion hmoment]
    exact congrArg (min _) (Nat.max_eq_right hlast)
  rw [hfixed hfirst hbefore, hfixed hsecond hbefore']

/-- A version minted at 1000 ms: five seconds end at 6000 ms, be they set at 1000 ms or at
5999 ms, and at 60000 ms they are over. -/
theorem deadline_closed_form_aged :
    let version : Version := (1000000 : Version) <<< 8
    let deadline := fun now => versionRelative.deadline now 5 .seconds version
    (60000 : Millis) < UInt64.size - 1 ∧ version.mintMicros / 1000 = 1000 ∧
      deadline 60000 = 60001 ∧ deadline 5999 = deadline 1000 ∧ deadline 1000 = 6000 := by
  intro version deadline
  have hminted : version.mintMicros / 1000 = 1000 := by decide +kernel
  have hnow : (60000 : Millis) < UInt64.size - 1 := by decide +kernel
  have hmode : versionRelative = .versionRelative ∧ version ≠ 0 := ⟨rfl, by decide +kernel⟩
  obtain ⟨hfixed, _, _, _, hsame⟩ := deadline_closed_form hnow .versionRelative 5 .seconds version
  refine ⟨hnow, hminted, ?_, ?_, by decide +kernel⟩
  · exact (hfixed ⟨hmode.1, hmode.2, by decide +kernel⟩).trans (by decide +kernel)
  · exact hsame hmode 5999 1000 (by decide +kernel) (by decide +kernel) (by decide +kernel)
      (by decide +kernel)

end ExpiryMode

theorem Context.lt_deadline {context : Context} (h : context.now < horizon) (ttl : Nat)
    (unit : TtlUnit) (version : Version) : context.now < context.deadline ttl unit version :=
  ExpiryMode.lt_deadline h context.mode ttl unit version

end Keyspace
