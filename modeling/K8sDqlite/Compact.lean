import K8sDqlite.Write

namespace K8sDqlite

/-- tryCompact's first DELETE selects these ids: the rows an update or delete in `(start, end]`
superseded (`created = 0` keeps rows written by older peers' create bug). -/
def supersededIds (rows : List Row) (start end_ : Int) : List Int :=
  (rows.filter (fun r => r.name ≠ compactRevKey ∧ r.created = false ∧ r.prevRevision ≠ 0 ∧
    start < r.id ∧ r.id ≤ end_)).map Row.prevRevision

/-- tryCompact's second DELETE: a tombstone in `(start, end]`. -/
def inWindowTombstone (start end_ : Int) (r : Row) : Bool := r.deleted ∧ start < r.id ∧ r.id ≤ end_

/-- The marker row after `SET prev_revision = max(prev_revision, ?)`. -/
def raiseMarker (revision : Int) (r : Row) : Row :=
  if r.name = compactRevKey then { r with prevRevision := max r.prevRevision revision } else r

/-- UpdateCompactSQL. -/
def updateCompact (db : Db) (revision : Int) : Db :=
  db.update (raiseMarker revision) (fun r => by unfold raiseMarker; split_ifs <;> rfl)

namespace Generic

/-- Generic.tryCompact: one transaction of the two DELETEs and UpdateCompactSQL. -/
def tryCompact (db : Db) (start end_ : Int) : Db :=
  let db₁ := db.delete (fun r => r.id ∈ supersededIds db.rows start end_)
  let db₂ := db₁.delete (inWindowTombstone start end_)
  updateCompact db₂ end_

/-- Generic.Compact up to its transaction: none when `compactStart >= revision`, else the window
`(compactStart, revision]`, the revision clamped to the current revision. -/
def compactWindow (db : Db) (revision : Int) : Option (Int × Int) :=
  let (compactStart, currentRevision) := getCompactRevision db
  if compactStart ≥ revision then none
  else some (compactStart, if revision > currentRevision then currentRevision else revision)

/-- Generic.Compact when nothing comes between its read and its transaction. -/
def compact (db : Db) (revision : Int) : Db :=
  match compactWindow db revision with
  | none => db
  | some (start, end_) => tryCompact db start end_

end Generic

/-- Generic.Compact's window: from the watermark to the revision asked for, clamped to the current
revision; none once the watermark has reached the revision. -/
theorem compactWindow_eq (db : Db) (revision : Int) :
    Generic.compactWindow db revision =
      if db.watermark < revision then some (db.watermark, min revision (Generic.getCompactRevision db).2) else none := by
  simp only [Generic.compactWindow, Db.watermark, min_def]
  split_ifs <;> first | rfl | omega

/-- Compact returns early once the watermark has reached the revision asked for, else runs tryCompact
from the watermark to that revision clamped to MAX(id). -/
theorem compact_eq (db : Db) (revision : Int) :
    Generic.compact db revision = if db.watermark < revision then
      Generic.tryCompact db db.watermark (min revision (Generic.getCompactRevision db).2) else db := by
  rw [Generic.compact, compactWindow_eq]
  split_ifs <;> rfl

@[simp] theorem raiseMarker_id (revision : Int) (r : Row) : (raiseMarker revision r).id = r.id := by
  unfold raiseMarker; split_ifs <;> rfl

@[simp] theorem raiseMarker_name (revision : Int) (r : Row) : (raiseMarker revision r).name = r.name := by
  unfold raiseMarker; split_ifs <;> rfl

theorem raiseMarker_of_ne {revision : Int} {r : Row} (h : r.name ≠ compactRevKey) : raiseMarker revision r = r := by
  simp [raiseMarker, h]

theorem tryCompact_rows (db : Db) (start end_ : Int) :
    (Generic.tryCompact db start end_).rows =
      ((db.rows.filter (fun r => r.id ∉ supersededIds db.rows start end_)).filter
        (fun r => !inWindowTombstone start end_ r)).map (raiseMarker end_) := by
  simp [Generic.tryCompact, updateCompact]

theorem rowsOf_map_raiseMarker (rows : List Row) (revision : Int) {key : Bytes} (hkey : key ≠ compactRevKey) :
    rowsOf (rows.map (raiseMarker revision)) key = rowsOf rows key := by
  induction rows with
  | nil => rfl
  | cons r rows ih =>
    by_cases h : r.name = key
    · simp [rowsOf, h, raiseMarker_of_ne (h ▸ hkey : r.name ≠ compactRevKey)] at ih ⊢; exact ih
    · simpa [rowsOf, h] using ih

theorem rowsOf_filter (rows : List Row) (p : Row → Bool) (key : Bytes) :
    rowsOf (rows.filter p) key = (rowsOf rows key).filter p := by
  simp only [rowsOf, List.filter_filter, Bool.and_comm]

/-- On every other name, tryCompact only removes rows, those its two DELETEs hit. -/
theorem rowsOf_tryCompact (db : Db) (start end_ : Int) {key : Bytes} (hkey : key ≠ compactRevKey) :
    rowsOf (Generic.tryCompact db start end_).rows key =
      ((rowsOf db.rows key).filter (fun r => r.id ∉ supersededIds db.rows start end_)).filter
        (fun r => !inWindowTombstone start end_ r) := by
  rw [tryCompact_rows, rowsOf_map_raiseMarker _ _ hkey, rowsOf_filter, rowsOf_filter]

end K8sDqlite
