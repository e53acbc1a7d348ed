import Keyspace.Proofs.History
import Keyspace.Proofs.Renaming

/-!
# Versions of live keys

Two facts about every command.

* While a key lives, no command lowers its version (`Command.version_le_run`).
  Most commands make no key anew, or add to a key and never remove it; the
  others write once, write at one deadline, or rename.
* A key that dies and is made anew has a version that the command carries.
  `Command.stamps` lists them, and a lower bound that they respect survives the
  command (`Command.bound_run`).
-/

namespace Keyspace

namespace Keys

variable {now : Millis} {store : Store}

/-- A rename of a key to itself changes nothing. -/
theorem rename_self (key : Bytes) (version : Version) (onlyIfAbsent : Bool) :
    ((rename key key version onlyIfAbsent).on now store).2 = store := by
  refine Script.Calls.unchanged ?_ now store
  refine .bind calls_requireVersion fun _ => .bind (calls_requireRecord (by rfl)) fun record => ?_
  rw [if_pos rfl]
  exact .done _

end Keys

namespace Command

variable {context : Context} {command : Command} {store : Store} {key : Bytes} {c : Call}

/-! ## Keys made anew -/

/-- The keys that a command may make, each with the version that it would have. -/
def stamps : Command → List (Bytes × Version)
  | getSet key item _ | set key item _ _ | setEx key item _ | setWith key item _ _ =>
    [(key, item.version)]
  | incrBy key version _ _ | decrBy key version _ _ => [(key, version)]
  | mset items _ _ => items.map fun (key, item) => (key, item.version)
  | hset key _ item _ => [(key, item.version)]
  | hmset key values _ => values.map fun (_, item) => (key, item.version)
  | hincrBy key _ version _ _ | zincrBy key _ version _ _ => [(key, version)]
  | sadd key members _ => members.map fun item => (key, item.version)
  | zadd key items _ => items.map fun item => (key, item.version)
  | rename _ target version _ => [(target, version)]
  | _ => []

/-- Only a rename makes keys with versions of which `stamps` does not tell, and
only halfway. -/
theorem Footprint.stamp_mem {version : Version} (h : command.Footprint c)
    (hrename : ∀ source target version onlyIfAbsent,
      command ≠ .rename source target version onlyIfAbsent)
    (hkey : c.key? = some key) (hstamp : c.stamp? = some version) :
    (key, version) ∈ command.stamps := by
  cases command with
  | rename => exact absurd rfl (hrename _ _ _ _)
  | _ =>
    simp only [Footprint] at h
    simp only [stamps, List.mem_singleton, List.mem_map, List.not_mem_nil, Prod.exists,
      Prod.mk.injEq]
    grind [Call.key?, Call.stamp?]

theorem run_rename (source target : Bytes) (version : Version) (onlyIfAbsent : Bool) :
    ((rename source target version onlyIfAbsent).run context store).2 =
      ((Keys.rename source target version onlyIfAbsent).on context.now store).2 :=
  congrArg Prod.snd (run_of_reply (by rfl) store)

/-- A rename makes no key but its target. -/
theorem Footprint.key_of_stamp {source target : Bytes} {version stamp : Version}
    {onlyIfAbsent : Bool} (h : (rename source target version onlyIfAbsent).Footprint c)
    (hkey : c.key? = some key) (hstamp : c.stamp? = some stamp) : target = key := by
  simp only [Footprint] at h
  rcases h with hsource | htarget
  · grind [Call.stamp?]
  · rcases htarget with rfl | rfl | ⟨_, _, rfl⟩ | ⟨_, _, rfl⟩ | ⟨_, _, rfl⟩ | ⟨_, _, _, rfl⟩ |
      ⟨_, rfl⟩ <;> exact Option.some.inj hkey

variable {p : Version → Prop}

/-- A lower bound survives a command that makes the key anew only with versions
that respect it. -/
theorem bound_run (hup : ∀ a b, a ≤ b → p a → p b) (command : Command)
    (h : store.Bound context.now key p)
    (hstamps : ∀ version, (key, version) ∈ command.stamps → p version) :
    (command.run context store).2.Bound context.now key p := by
  have hraise : ∀ old version, p old → p (max old version) :=
    fun old version => hup old _ (Version.le_max_left old version)
  -- the bound survives call by call, if no call makes the key anew against it
  have hcalls : (∀ c, command.Footprint c → c.key? = some key →
      ∀ stamp, c.stamp? = some stamp → p stamp) →
      (command.run context store).2.Bound context.now key p := by
    intro hstamp
    have hstep : ∀ c, command.Footprint c → ∀ store : Store, store.Bound context.now key p →
        (store.perform context.now c).2.Bound context.now key p :=
      fun c hc store hstore => hstore.perform (fun _ old => hraise old _) (hstamp c hc)
    exact Script.Calls.preserves_on hstep (script_calls context command) h
  cases command with
  | rename source target version onlyIfAbsent =>
    by_cases htarget : target = key
    · subst htarget
      rw [run_rename]
      by_cases hne : source = target
      · subst hne
        rw [Keys.rename_self]
        exact h
      · intro slot hslot
        rcases Keys.rename_target hne version onlyIfAbsent store with
          ⟨_, _, hsame⟩ | ⟨_, hfloor⟩
        · rw [hsame] at hslot
          exact h slot hslot
        · exact hup version _ (hfloor slot hslot) (hstamps version (by simp [stamps]))
    · refine hcalls fun c hc hkey stamp hstamp => ?_
      exact absurd (hc.key_of_stamp hkey hstamp) htarget
  | _ =>
    refine hcalls fun c hc hkey stamp hstamp => hstamps stamp ?_
    exact hc.stamp_mem (by simp) hkey hstamp

/-! ## Keys that stay live -/

/-- Whether a command adds to a collection and does nothing else. -/
def grows : Command → Bool
  | hset .. | hmset .. | hincrBy .. | sadd .. | zadd .. | zincrBy .. => true
  | _ => false

theorem Footprint.reads_or_grows (h : command.Footprint c) (hgrows : command.grows = true) :
    c.reads = true ∨ c.grows = true := by
  cases command with
  | hset | hmset | hincrBy | sadd | zadd | zincrBy =>
    simp only [Footprint] at h
    grind [Call.reads, Call.grows]
  | _ => cases hgrows

theorem Footprint.keeps {now : Millis} (h : command.Footprint c) (hgrows : command.grows = true) :
    c.Keeps now := by
  rcases h.reads_or_grows hgrows with hreads | hgrows
  · exact Call.keeps_of_reads hreads now
  · exact Call.keeps_of_grows hgrows now

/-- The key of a command that writes one string, and the version of the string. -/
def puts? : Command → Option (Bytes × Version)
  | getSet key item _ | set key item _ _ | setEx key item _ | setWith key item _ _ =>
    some (key, item.version)
  | incrBy key version _ _ | decrBy key version _ _ => some (key, version)
  | _ => none

theorem commits_reply {α : Type} {P : Call → Prop} {Q : Status → Prop}
    {script : Script Status α} (h : script.Commits P Q) (data : α → Data) :
    (reply script data).Commits P Q :=
  h.map _

/-- A command that writes one string makes one writing call. -/
theorem commits_puts {version : Version} (h : command.puts? = some (key, version)) :
    (command.script context).Commits
      (fun c => ∃ value deadline, c = .put key ⟨value, version⟩ deadline) (· ≠ .ok) := by
  cases command with
  | getSet key item terms =>
    cases h
    exact commits_reply (Strings.commits_exchange fun d => ⟨item.value, d, rfl⟩) _
  | set key item terms mode =>
    cases h
    exact commits_reply (Strings.commits_set ⟨item.value, _, rfl⟩) _
  | setEx key item seconds =>
    cases h
    exact commits_reply (Strings.commits_setFor (fun d => ⟨item.value, d, rfl⟩) seconds) _
  | setWith key item terms tokens =>
    cases h
    exact commits_reply (Strings.commits_setWith (fun d => ⟨item.value, d, rfl⟩) tokens) _
  | incrBy key version delta terms =>
    cases h
    exact commits_reply (Strings.commits_add (fun value d => ⟨value, d, rfl⟩) delta) _
  | decrBy key version delta terms =>
    cases h
    exact commits_reply (Strings.commits_subtract (fun value d => ⟨value, d, rfl⟩) delta) _
  | _ => cases h

variable {slot next : Slot}

/-- A batch of strings writes them all with one deadline.  If that has passed,
none of its keys is live afterwards; if not, its keys stay live. -/
theorem version_le_mset {items : List (Bytes × Item)} {terms : Terms} {mode : WriteMode}
    (hbefore : store.live? context.now key = some slot)
    (hafter : ((mset items terms mode).run context store).2.live? context.now key = some next) :
    slot.version ≤ next.version := by
  cases hdeadline : (mode.deadline terms).any (· ≤ context.now) with
  | true =>
    have hstep : ∀ c, (mset items terms mode).Footprint c → ∀ store : Store,
        store.Floor context.now key slot.version →
        (store.perform context.now c).2.Floor context.now key slot.version := by
      intro c hc store hstore
      obtain ⟨entry, _, rfl | rfl⟩ := hc
      · exact hstore
      · exact Store.Bound.put_expired hstore hdeadline _ _
    have hfloor : store.Floor context.now key slot.version := by
      intro other hother
      rw [hbefore] at hother
      cases hother
      exact UInt64.le_refl _
    have hrun : ((mset items terms mode).run context store).2.Floor context.now key slot.version :=
      Script.Calls.preserves_on hstep (script_calls context _) hfloor
    exact hrun next hafter
  | false =>
    have hstep : ∀ c, (mset items terms mode).Footprint c → ∀ store : Store,
        store.Stands context.now key slot.version →
        (store.perform context.now c).2.Stands context.now key slot.version := by
      intro c hc store hstore
      obtain ⟨entry, _, rfl | rfl⟩ := hc
      · exact hstore.perform (by simp) fun _ => Call.keeps_of_reads rfl _
      · exact hstore.perform (by simp) fun _ => Call.keeps_put hdeadline _ _
    have hstands : ((mset items terms mode).run context store).2.Stands context.now key
        slot.version :=
      Script.Calls.preserves_on hstep (script_calls context _) ⟨slot, hbefore, UInt64.le_refl _⟩
    exact hstands.floor next hafter

/-- While a key lives, no command lowers its version. -/
theorem version_le_run (hbefore : store.live? context.now key = some slot)
    (hafter : (command.run context store).2.live? context.now key = some next) :
    slot.version ≤ next.version := by
  have hstands : store.Stands context.now key slot.version :=
    ⟨slot, hbefore, UInt64.le_refl _⟩
  have hputs : ∀ target version, command.puts? = some (target, version) →
      slot.version ≤ next.version := by
    intro target version hputs
    rcases (commits_puts hputs).run_eq context.now store with hsame | ⟨c, _, hcall⟩
    · exact hstands.floor next (hsame ▸ hafter)
    · exact Store.version_le_perform hbefore (hcall ▸ hafter)
  have hgrows : command.grows = true → slot.version ≤ next.version := by
    intro hgrows
    have hstep : ∀ c, command.Footprint c → ∀ store : Store,
        store.Stands context.now key slot.version →
        (store.perform context.now c).2.Stands context.now key slot.version := by
      refine fun c hc store hstore => hstore.perform ?_ fun _ => hc.keeps hgrows
      rintro rfl
      rw [hc.eq_finalize] at hgrows
      cases hgrows
    have hrun : (command.run context store).2.Stands context.now key slot.version :=
      Script.Calls.preserves_on hstep (script_calls context command) hstands
    exact hrun.floor next hafter
  have hother : (∀ version, (key, version) ∉ command.stamps) → slot.version ≤ next.version := by
    intro hstamps
    refine bound_run (fun _ _ hle hold => UInt64.le_trans hold hle) command hstands.floor ?_ next
      hafter
    exact fun version hversion => absurd hversion (hstamps version)
  cases command with
  | getSet | set | setEx | setWith | incrBy | decrBy => exact hputs _ _ rfl
  | hset | hmset | hincrBy | sadd | zadd | zincrBy => exact hgrows rfl
  | mset items terms mode => exact version_le_mset hbefore hafter
  | rename source target version onlyIfAbsent =>
    by_cases hkey : target = key
    · subst hkey
      rw [run_rename] at hafter
      by_cases hne : source = target
      · subst hne
        rw [Keys.rename_self] at hafter
        exact hstands.floor next hafter
      · rcases Keys.rename_target hne version onlyIfAbsent store with
          ⟨_, _, hsame⟩ | ⟨hlower, hfloor⟩
        · rw [hsame] at hafter
          exact hstands.floor next hafter
        · exact UInt64.le_trans (UInt64.le_of_lt (hlower slot hbefore)) (hfloor next hafter)
    · exact hother (by simp [stamps, Ne.symm hkey])
  | _ => exact hother (by simp [stamps])

end Command

end Keyspace
