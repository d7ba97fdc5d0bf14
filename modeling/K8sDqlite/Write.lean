import K8sDqlite.Query
import K8sDqlite.Store

namespace K8sDqlite

/-- `CASE WHEN kine.created THEN id ELSE create_revision END`: the create revision a row carries. -/
def carriedCreateRevision (r : Row) : Int := if r.created then r.id else r.createRevision

/-- CreateSQL: a created row when the name has no row or its row at MAX(id) is a tombstone;
prev_revision is `COALESCE(MAX(id), 0)`. -/
def createSQL (rows : List Row) (key : Bytes) (lease : Int) (value : Option Bytes) (id : Int) : Option Row :=
  let row (prev : Int) : Row :=
    { id, name := key, created := true, deleted := false, createRevision := 0, prevRevision := prev,
      lease, value, oldValue := none }
  match latest rows key with
  | none => some (row 0)
  | some r => if r.deleted then some (row r.id) else none

/-- The row UpdateSQL and DeleteSQL select from: `FROM kine WHERE id = (SELECT MAX(id) FROM kine
WHERE name = ?) AND deleted = 0 AND id = ?`. -/
def casRow (rows : List Row) (key : Bytes) (revision : Int) : Option Row :=
  (latest rows key).filter (fun r => !r.deleted && r.id == revision)

/-- UpdateSQL. -/
def updateSQL (rows : List Row) (key : Bytes) (lease : Int) (value : Option Bytes) (preRev id : Int) :
    Option Row :=
  (casRow rows key preRev).map fun r =>
    { id, name := key, created := false, deleted := false, createRevision := carriedCreateRevision r,
      prevRevision := r.id, lease, value, oldValue := r.value }

/-- DeleteSQL: a tombstone carrying the live row's lease, with its value as old_value. -/
def deleteSQL (rows : List Row) (key : Bytes) (revision id : Int) : Option Row :=
  (casRow rows key revision).map fun r =>
    { id, name := r.name, created := false, deleted := true, createRevision := carriedCreateRevision r,
      prevRevision := r.id, lease := r.lease, value := none, oldValue := r.value }

/-- FillSQL's values in Generic.Fill: a tombstone named `gap-<revision>` at id `revision`. -/
def fillRow (revision : Int) : Row :=
  { id := revision, name := fillName revision, created := false, deleted := true, createRevision := 0,
    prevRevision := 0, lease := 0, value := none, oldValue := none }

/-- The row a write's INSERT ... SELECT yields, given the id the engine gives it. -/
def Write.select (rows : List Row) (id : Int) : Write → Option Row
  | .create key value ttl => createSQL rows key ttl value id
  | .update key value preRev ttl => updateSQL rows key ttl value preRev id
  | .delete key revision => deleteSQL rows key revision id

theorem Write.select_id {rows : List Row} {id : Int} (w : Write) : ∀ r ∈ w.select rows id, r.id = id := by
  intro r hr
  cases w <;> simp only [select, createSQL, updateSQL, deleteSQL, Option.mem_def, Option.map_eq_some'] at hr
  · split at hr <;> (try split_ifs at hr) <;> cases hr <;> rfl
  all_goals obtain ⟨_, -, rfl⟩ := hr; rfl

/-- Whether a write's SELECT yields its row does not depend on the id the engine gives it. -/
theorem Write.isSome_select (rows : List Row) (w : Write) (id id' : Int) :
    (w.select rows id).isSome = (w.select rows id').isSome := by
  cases w <;> simp only [select, createSQL, updateSQL, deleteSQL, Option.isSome_map']
  split <;> (try split_ifs) <;> rfl

/-- What a row says about its key: nothing for a tombstone; else its value, create revision, mod
revision (its id) and lease. -/
def toEntry (r : Row) : Option Entry :=
  if r.deleted then none else some ⟨r.value, carriedCreateRevision r, r.id, r.lease⟩

/-- How a row follows the previous row of its name: CreateSQL after a tombstone, UpdateSQL and
DeleteSQL after a live row, carrying its create revision and keeping its value as old_value. -/
def Follows (x y : Row) : Prop :=
  y.prevRevision = x.id ∧ (y.created ↔ x.deleted) ∧
    (y.created = false → y.createRevision = carriedCreateRevision x ∧ y.oldValue = x.value)

/-- The row a write inserts: the key's, linked to the key's row at MAX(id) (or 0 without one). -/
theorem Write.select_spec (rows : List Row) (id : Int) (w : Write) {r : Row} (h : w.select rows id = some r) :
    r.name = w.key ∧ r.prevRevision = ((latest rows w.key).map Row.id).getD 0 ∧
      (∀ x, latest rows w.key = some x → Follows x r) ∧ (latest rows w.key = none → r.created = true) := by
  cases w <;>
    simp only [select, createSQL, updateSQL, deleteSQL, casRow, Option.map_eq_some'] at h <;>
    simp only [key]
  case create key value ttl =>
    rcases hl : latest rows key with _ | x <;> simp only [hl] at h
    · cases h; simp [Follows]
    · split_ifs at h with hd; cases h; simp [Follows, hd, hl]
  all_goals
    obtain ⟨x, hx, rfl⟩ := h
    rcases hl : latest rows _ with _ | y
    · simp [hl] at hx
    simp only [hl, Option.filter, Bool.and_eq_true, Bool.not_eq_true', beq_iff_eq] at hx
    split_ifs at hx with hc
    cases hx
    simp [Follows, hc.1, (latest_mem hl).2]

/-- The row a write inserts links to 0, or to its key's row at MAX(id). -/
theorem Write.select_prev (rows : List Row) (id : Int) (w : Write) {r : Row} (h : w.select rows id = some r) :
    r.prevRevision = 0 ∨ ∃ x, latest rows w.key = some x ∧ r.prevRevision = x.id := by
  rw [(select_spec rows id w h).2.1]
  rcases latest rows w.key with _ | x
  exacts [.inl rfl, .inr ⟨x, rfl, rfl⟩]

/-- A write's SQL yields a row exactly when the abstract compare-and-swap succeeds, and that row is
the key's new entry. -/
theorem Write.select_store (rows : List Row) (id : Int) (w : Write) (s : Store)
    (hs : s w.key = (latest rows w.key).bind toEntry) :
    s.write id w = (w.select rows id).map (fun r => Function.update s w.key (toEntry r)) := by
  cases w with
  | create key value ttl =>
    simp only [Write.key] at hs
    simp only [select, Store.write, createSQL, Write.key, hs]
    rcases latest rows key with _ | x
    · simp [toEntry, carriedCreateRevision]
    · by_cases hd : x.deleted <;> simp [toEntry, hd, carriedCreateRevision]
  | update key value preRev ttl =>
    simp only [Write.key] at hs
    simp only [select, Store.write, updateSQL, casRow, Write.key, hs]
    rcases latest rows key with _ | x
    · simp
    · by_cases hd : x.deleted <;> by_cases hp : x.id = preRev <;>
        simp [toEntry, hd, hp, carriedCreateRevision, Option.filter]
  | delete key revision =>
    simp only [Write.key] at hs
    simp only [select, Store.write, deleteSQL, casRow, Write.key, hs]
    rcases latest rows key with _ | x
    · simp
    · by_cases hd : x.deleted <;> by_cases hp : x.id = revision <;>
        simp [toEntry, hd, hp, carriedCreateRevision, Option.filter]

/-- Executing an INSERT ... SELECT: `(LastInsertId, true)` when the SELECT yields its row, `(0, false)`
when it yields none. -/
def Db.insertSelected (db : Db) (id : Int) (hid : db.seq < id) :
    (row : Option Row) → (∀ r ∈ row, r.id = id) → Db × Int × Bool
  | none, _ => (db, 0, false)
  | some r, h => (db.append r (by rw [h r rfl]; exact hid), id, true)

theorem Db.insertSelected_of_none {db : Db} {id : Int} {hid : db.seq < id} {row : Option Row}
    {h : ∀ r ∈ row, r.id = id} (hr : row = none) : db.insertSelected id hid row h = (db, 0, false) := by
  subst hr; rfl

theorem Db.insertSelected_of_some {db : Db} {id : Int} {hid : db.seq < id} {row : Option Row}
    {h : ∀ r ∈ row, r.id = id} {r : Row} (hr : row = some r) :
    (db.insertSelected id hid row h).1.rows = db.rows ++ [r] ∧ (db.insertSelected id hid row h).1.seq = id ∧
      (db.insertSelected id hid row h).2 = (id, true) := by
  subst hr; exact ⟨rfl, h r rfl, rfl⟩

namespace Generic

/-- Generic.Create, Generic.Update and Generic.Delete: `(rev, ok)`, the id being the engine's. -/
def write (db : Db) (w : Write) (id : Int) (hid : db.seq < id) : Db × Int × Bool :=
  db.insertSelected id hid (w.select db.rows id) w.select_id

def create (db : Db) (key : Bytes) (value : Option Bytes) (ttl id : Int) (hid : db.seq < id) :=
  write db (.create key value ttl) id hid

def update (db : Db) (key : Bytes) (value : Option Bytes) (preRev ttl id : Int) (hid : db.seq < id) :=
  write db (.update key value preRev ttl) id hid

def delete (db : Db) (key : Bytes) (revision id : Int) (hid : db.seq < id) :=
  write db (.delete key revision) id hid

/-- Generic.Create, Generic.Update and Generic.Delete with the id AUTOINCREMENT gives; none for the
"database or disk is full" an INSERT that yields a row meets once the largest rowid is given out. -/
def writeNext (db : Db) (w : Write) : Option (Db × Int × Bool) :=
  if db.seq < maxRowid then some (write db w (db.seq + 1) (Int.lt_succ db.seq))
  else if (w.select db.rows (db.seq + 1)).isSome then none else some (db, 0, false)

/-- Generic.Fill: FillSQL inserts the gap row; an id already present violates the primary key. -/
def fill (db : Db) (revision : Int) : Db × Bool :=
  if h : revision ∈ db.rows.map Row.id then (db, false) else (db.appendAt (fillRow revision) h, true)

/-- Generic.DeleteRevision: DeleteRevSQL, `DELETE FROM kine WHERE id = ?`. -/
def deleteRevision (db : Db) (revision : Int) : Db := db.delete (fun r => r.id = revision)

theorem write_of_select_none {db : Db} {w : Write} {id : Int} (hid : db.seq < id)
    (h : w.select db.rows id = none) : write db w id hid = (db, 0, false) :=
  Db.insertSelected_of_none h

theorem write_of_select_some {db : Db} {w : Write} {id : Int} (hid : db.seq < id) {r : Row}
    (h : w.select db.rows id = some r) :
    (write db w id hid).1.rows = db.rows ++ [r] ∧ (write db w id hid).1.seq = id ∧
      (write db w id hid).2 = (id, true) :=
  Db.insertSelected_of_some h

/-- A write succeeds exactly when its SELECT yields a row. -/
theorem write_ok (db : Db) (w : Write) (id : Int) (hid : db.seq < id) :
    (write db w id hid).2.2 = (w.select db.rows id).isSome := by
  rcases hy : w.select db.rows id with _ | y
  · rw [write_of_select_none hid hy]; rfl
  · rw [(write_of_select_some hid hy).2.2]; rfl

/-- What the engine's write returns is the write at the id one above the counter. -/
theorem writeNext_eq_some {db : Db} {w : Write} {out : Db × Int × Bool} (h : writeNext db w = some out) :
    out = write db w (db.seq + 1) (Int.lt_succ db.seq) := by
  unfold writeNext at h
  split_ifs at h with hseq hsel
  · exact (Option.some.inj h).symm
  · cases h
    exact (write_of_select_none _ (Option.not_isSome_iff_eq_none.mp hsel)).symm

/-- Tables on which a write reads the same, with counters both below the largest rowid or both not,
give the engine's write the same outcome: an error on both, or the same ok flag. -/
theorem writeNext_ok_congr {db db' : Db} {w : Write} (hsel : ∀ id, w.select db'.rows id = w.select db.rows id)
    (hseq : db'.seq < maxRowid ↔ db.seq < maxRowid) :
    (writeNext db' w).map (·.2.2) = (writeNext db w).map (·.2.2) := by
  unfold writeNext
  by_cases h : db.seq < maxRowid
  · rw [if_pos (hseq.mpr h), if_pos h, Option.map_some', Option.map_some', write_ok, write_ok, hsel,
      w.isSome_select _ (db'.seq + 1) (db.seq + 1)]
  · rw [if_neg (mt hseq.mp h), if_neg h, hsel, w.isSome_select _ (db'.seq + 1) (db.seq + 1)]
    split_ifs <;> rfl

end Generic

end K8sDqlite
