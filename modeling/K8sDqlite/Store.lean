import K8sDqlite.Key

namespace K8sDqlite

/-- A client write as the Generic API takes it: Create, Update and Delete. -/
inductive Write
  | create (key : Bytes) (value : Option Bytes) (ttl : Int)
  | update (key : Bytes) (value : Option Bytes) (preRev ttl : Int)
  | delete (key : Bytes) (revision : Int)
  deriving DecidableEq, Repr

def Write.key : Write → Bytes
  | .create key _ _ => key
  | .update key _ _ _ => key
  | .delete key _ => key

/-- The mod revision an Update or a Delete is conditioned on. -/
def Write.condition : Write → Option Int
  | .create .. => none
  | .update _ _ preRev _ => some preRev
  | .delete _ revision => some revision

/-- What the store holds for a live key. -/
structure Entry where
  value : Option Bytes
  createRevision : Int
  modRevision : Int
  lease : Int
  deriving DecidableEq, Repr

/-- The versioned key-value store the revision log implements. -/
abbrev Store := Bytes → Option Entry

namespace Store

def empty : Store := fun _ => none

/-- A compare-and-swap write at revision `rev`; none when its condition fails. Create needs the key
absent, Update and Delete need it present at mod revision `preRev`; Update keeps the create revision. -/
def write (s : Store) (rev : Int) : Write → Option Store
  | .create key value ttl =>
    if s key = none then some (Function.update s key (some ⟨value, rev, rev, ttl⟩)) else none
  | .update key value preRev ttl =>
    match s key with
    | some e => if e.modRevision = preRev then
        some (Function.update s key (some ⟨value, e.createRevision, rev, ttl⟩)) else none
    | none => none
  | .delete key revision =>
    match s key with
    | some e => if e.modRevision = revision then some (Function.update s key none) else none
    | none => none

theorem write_other {s s' : Store} {rev : Int} {w : Write} (h : s.write rev w = some s') {key : Bytes}
    (hk : key ≠ w.key) : s' key = s key := by
  cases w <;> simp only [write, Write.key] at h hk <;> split at h <;> (try split_ifs at h) <;>
    first | (cases h; exact Function.update_noteq hk _ _) | cases h

/-- A successful write leaves each entry as it was or gives it the write's revision. -/
theorem write_modRevision {s s' : Store} {rev : Int} {w : Write} (h : s.write rev w = some s') (key : Bytes)
    {e : Entry} (he : s' key = some e) : s key = some e ∨ e.modRevision = rev := by
  by_cases hk : key = w.key
  · subst hk
    cases w <;> simp only [write, Write.key] at h he ⊢ <;> split at h <;> (try split_ifs at h) <;> cases h <;>
      simp only [Function.update_same, Option.some.injEq, reduceCtorEq] at he <;> exact .inr (he ▸ rfl)
  · exact .inl (write_other h hk ▸ he)

/-- An Update or a Delete conditioned below the key's mod revision, or on an absent key, fails. -/
theorem write_eq_none_of_lt {s : Store} {rev p : Int} {w : Write} (hw : w.condition = some p)
    (h : ∀ e, s w.key = some e → p < e.modRevision) : s.write rev w = none := by
  cases w <;> simp only [Write.condition, reduceCtorEq, Option.some.injEq] at hw <;> subst hw <;>
    simp only [Write.key] at h <;> simp only [write] <;> split
  all_goals first | rfl | exact if_neg (h _ ‹_›).ne'

end Store

/-- The store after each successful write, with the write's revision, oldest first. -/
abbrev History := List (Int × Store)

namespace History

def current (h : History) : Store := (h.getLast?.map Prod.snd).getD Store.empty

/-- The store as it stood after the last successful write with revision at most `R`. -/
def «at» (h : History) (R : Int) : Store := current (h.filter (·.1 ≤ R))

/-- Apply a write to the current store and record it when it succeeds. -/
def write (h : History) (rev : Int) (w : Write) : History :=
  match h.current.write rev w with
  | some s => h ++ [(rev, s)]
  | none => h

@[simp] theorem current_nil : current [] = Store.empty := rfl

@[simp] theorem current_append (h : History) (rev : Int) (s : Store) : current (h ++ [(rev, s)]) = s := by
  simp [current]

theorem current_eq_none {h : History} {key : Bytes} (hk : ∀ p ∈ h, p.2 key = none) : h.current key = none := by
  rcases hl : h.getLast? with _ | p
  · simp [current, hl, Store.empty]
  · simp [current, hl, hk p (List.mem_of_getLast?_eq_some hl)]

theorem at_eq_none {h : History} {key : Bytes} (hk : ∀ p ∈ h, p.2 key = none) (R : Int) : h.at R key = none :=
  current_eq_none fun p hp => hk p (List.mem_of_mem_filter hp)

theorem at_of_le {h : History} {R : Int} (hR : ∀ p ∈ h, p.1 ≤ R) : h.at R = h.current := by
  rw [«at», List.filter_eq_self.mpr (by simpa using hR)]

theorem at_append_of_lt (h : History) {rev R : Int} (s : Store) (hR : R < rev) :
    (h ++ [(rev, s)]).at R = h.at R := by
  simp [«at», List.filter_append, not_le.mpr hR]

theorem at_append_of_le (h : History) {rev R : Int} (s : Store) (hR : rev ≤ R) :
    (h ++ [(rev, s)]).at R = s := by
  simp [«at», List.filter_append, hR]

/-- A write at a later revision leaves the store as it stood at `R`. -/
theorem at_write_of_lt (h : History) {rev R : Int} (hR : R < rev) (w : Write) : (h.write rev w).at R = h.at R := by
  unfold write
  split
  · exact at_append_of_lt h _ hR
  · rfl

theorem current_write_modRevision (h : History) (rev : Int) (w : Write) (key : Bytes) {e : Entry}
    (he : (h.write rev w).current key = some e) : h.current key = some e ∨ e.modRevision = rev := by
  unfold write at he
  split at he
  · rw [current_append] at he; exact Store.write_modRevision ‹_› key he
  · exact .inl he

end History

end K8sDqlite
