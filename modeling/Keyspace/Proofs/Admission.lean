import Keyspace.Proofs.Script

/-!
# Runs of the checks

The checks of `Keyspace.Admission` read the record of a key and nothing else, so
a run of one of them is a function of what the store answers about the key.
-/

namespace Keyspace

variable {store : Store} {now : Millis} {key : Bytes} {terms : Terms} {kind : Kind}
  {version : Version} {α : Type}

/-- A write that is granted is newer than what is there. -/
theorem WriteMode.lt_of_verdict {mode : WriteMode} {current offered : Version}
    (h : mode.verdict (some current) offered = .ok) : current < offered := by
  rw [verdict] at h
  split at h
  · cases h
  · split at h
    · cases h
    · rename_i hle
      exact UInt64.not_le.mp hle

/-- A write that is granted over something live need not find the key absent. -/
theorem WriteMode.onlyIfAbsent_of_verdict {mode : WriteMode} {current offered : Version}
    (h : mode.verdict (some current) offered = .ok) : mode.onlyIfAbsent = false := by
  rw [verdict] at h
  split at h
  · cases h
  · rename_i habsent
    exact Bool.eq_false_iff.mpr habsent

/-- What the store answers when it is asked for the record of a key. -/
def Store.record (store : Store) (now : Millis) (key : Bytes) :
    Except Failure (Option Record) :=
  store.view now key none fun slot => .ok (some slot.record)

theorem Store.perform_record (store : Store) (now : Millis) (key : Bytes) :
    store.perform now (.record key) = (store.record now key, store) := rfl

theorem Store.record_open (hopen : store.closed = false) :
    store.record now key = .ok ((store.live? now key).map Slot.record) := by
  rw [record, view_open hopen]
  cases store.live? now key <;> rfl

theorem Store.record_closed (hclosed : store.closed = true) :
    store.record now key = .error .closed :=
  view_closed hclosed _ _

/-- Only an open store tells what it knows of a key. -/
theorem Store.record_eq_ok {found : Option Record} :
    store.record now key = .ok found ↔
      store.closed = false ∧ (store.live? now key).map Slot.record = found := by
  cases hclosed : store.closed with
  | true => simp [record_closed hclosed]
  | false => simp [record_open hclosed]

theorem requireVersion_of_ne (h : version ≠ 0) : requireVersion version = .done () :=
  if_neg h

theorem on_requireVersion :
    (requireVersion version).on now store =
      (if version = 0 then .error .error else .ok (), store) := by
  unfold requireVersion
  split <;> rfl

theorem on_requireSome (batch : List α) :
    (requireSome batch).on now store =
      (if batch.isEmpty then .error .wrongArgCount else .ok (), store) := by
  unfold requireSome
  split <;> rfl

theorem on_query_record :
    (query (.record key)).on now store =
      ((store.record now key).mapError Failure.status, store) :=
  Script.on_query _

theorem on_checkTerms :
    (checkTerms key terms).on now store =
      (match store.record now key with
        | .error failure => .error failure.status
        | .ok found => if terms.permit found then .ok found else .error .versionMismatch,
        store) := by
  rw [checkTerms, Script.bind_eq, Script.on_bind, on_query_record]
  cases store.record now key with
  | error failure => rfl
  | ok found =>
    show (if terms.permit found then Script.done found
        else Script.refuse Status.versionMismatch).on now store =
      (if terms.permit found then .ok found else .error .versionMismatch, store)
    split <;> rfl

theorem ne_zero_of_requireVersion {after : Store}
    (h : (requireVersion version).on now store = (.ok (), after)) : version ≠ 0 := by
  rintro rfl
  cases h

theorem record_of_query {found : Option Record} {after : Store}
    (h : (query (.record key)).on now store = (.ok found, after)) :
    store.record now key = .ok found := by
  have hanswer := Script.on_query_eq_ok h
  rw [Store.perform_record] at hanswer
  exact congrArg Prod.fst hanswer

/-- The terms of a check that is passed permit what it has found. -/
theorem record_of_checkTerms {found : Option Record} {after : Store}
    (h : (checkTerms key terms).on now store = (.ok found, after)) :
    store.record now key = .ok found ∧ terms.permit found = true := by
  rw [on_checkTerms] at h
  cases hrecord : store.record now key with
  | error failure =>
    rw [hrecord] at h
    cases h
  | ok found' =>
    rw [hrecord] at h
    by_cases hpermit : terms.permit found' = true
    · simp only [if_pos hpermit] at h
      cases h
      exact ⟨rfl, hpermit⟩
    · simp only [if_neg hpermit] at h
      cases h

/-- What passes the check of its kind is permitted and of that kind. -/
theorem record_of_checkKind {found : Option Record} {after : Store}
    (h : (checkKind key terms kind).on now store = (.ok found, after)) :
    store.record now key = .ok found ∧ terms.permit found = true ∧
      found.all (·.kind = kind) = true := by
  obtain ⟨found', between, hterms, hkind⟩ := Script.on_bind_eq_ok h
  split at hkind
  · rename_i hall
    cases hkind
    obtain ⟨hrecord, hpermit⟩ := record_of_checkTerms hterms
    exact ⟨hrecord, hpermit, hall⟩
  · cases hkind

theorem on_requireRecord :
    (requireRecord key).on now store =
      (match store.record now key with
        | .error failure => .error failure.status
        | .ok none => .error .notExist
        | .ok (some record) => .ok record,
        store) := by
  rw [requireRecord, Script.bind_eq, Script.on_bind, on_query_record]
  rcases store.record now key with failure | (_ | record) <;> rfl

theorem record_of_requireRecord {record : Record} {after : Store}
    (h : (requireRecord key).on now store = (.ok record, after)) :
    store.record now key = .ok (some record) := by
  rw [on_requireRecord] at h
  rcases hrecord : store.record now key with failure | (_ | found) <;> rw [hrecord] at h <;> cases h
  rfl

/-- A count that is not 0 is reported as it is. -/
theorem on_countOf {count : Script Status Nat} {n : Nat}
    (hcount : count.on now store = (.ok n, store)) (hpos : 0 < n) :
    (countOf count).on now store = (.ok n, store) := by
  rw [countOf, Script.bind_eq, Script.on_bind_ok hcount, if_neg (Nat.ne_of_gt hpos)]
  rfl

/-- A live key of the kind that is required has a record. -/
theorem on_requireKind {slot : Slot} (hopen : store.closed = false)
    (hslot : store.live? now key = some slot) (hkind : slot.content.kind = kind) :
    (requireKind key kind).on now store = (.ok slot.record, store) := by
  rw [requireKind, Script.bind_eq, Script.on_bind, on_requireRecord, Store.record_open hopen,
    hslot]
  show (if slot.content.kind = kind then _ else _ : Script Status Record).on now store = _
  rw [if_pos hkind]
  rfl

/-- A live key that is as the caller expects and not newer than the version has a record. -/
theorem on_checkCurrent {slot : Slot} (hopen : store.closed = false)
    (hslot : store.live? now key = some slot) (hkind : slot.content.kind = kind)
    (hpermit : terms.permit (some slot.record) = true) (hversion : slot.version ≤ version) :
    (checkCurrent key terms kind version).on now store = (.ok slot.record, store) := by
  have hterms : (checkTerms key terms).on now store = (.ok (some slot.record), store) := by
    rw [on_checkTerms, Store.record_open hopen, hslot]
    show (if terms.permit (some slot.record) = true then _ else _, store) = _
    rw [if_pos hpermit]
    rfl
  have hcheck : (checkKind key terms kind).on now store = (.ok (some slot.record), store) := by
    have hall : (some slot.record).all (·.kind = kind) = true := decide_eq_true hkind
    rw [checkKind, Script.bind_eq, Script.on_bind_ok hterms, if_pos hall]
    rfl
  rw [checkCurrent, checkExisting, Script.bind_eq, Script.bind_eq, Script.bind_assoc,
    Script.on_bind_ok hcheck]
  show ((requireCurrent slot.version version).bind fun _ => .done slot.record).on now store = _
  rw [requireCurrent, if_neg (UInt64.not_lt.mpr hversion)]
  rfl

/-- A key that is absent, as the caller may expect, has no record. -/
theorem on_checkCurrent_of_absent (hopen : store.closed = false)
    (hslot : store.live? now key = none) (hpermit : terms.permit none = true) :
    (checkCurrent key terms kind version).on now store = (.error .notExist, store) := by
  have hterms : (checkTerms key terms).on now store = (.ok none, store) := by
    rw [on_checkTerms, Store.record_open hopen, hslot]
    show (if terms.permit none = true then _ else _, store) = _
    rw [if_pos hpermit]
    rfl
  rw [checkCurrent, checkExisting, checkKind, Script.bind_eq, Script.bind_eq, Script.bind_eq,
    Script.bind_assoc, Script.bind_assoc, Script.on_bind_ok hterms]
  rfl

end Keyspace
