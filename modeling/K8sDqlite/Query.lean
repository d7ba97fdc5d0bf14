import K8sDqlite.Table

namespace K8sDqlite

/-- `ORDER BY name ASC, id ASC`. -/
def nameIdLe (a b : Row) : Prop := keyLt a.name b.name ∨ a.name = b.name ∧ a.id ≤ b.id

/-- `ORDER BY id ASC`. -/
def idLe (a b : Row) : Prop := a.id ≤ b.id

instance decNameIdLe : DecidableRel nameIdLe := fun _ _ => inferInstanceAs (Decidable (_ ∨ _))
instance decIdLe : DecidableRel idLe := fun _ _ => inferInstanceAs (Decidable (_ ≤ _))

instance nameIdLeTotal : IsTotal Row nameIdLe where
  total a b := by
    rcases trichotomous_of keyLt a.name b.name with h | h | h
    · exact .inl (.inl h)
    · rcases le_total a.id b.id with h' | h'
      · exact .inl (.inr ⟨h, h'⟩)
      · exact .inr (.inr ⟨h.symm, h'⟩)
    · exact .inr (.inl h)

instance nameIdLeTrans : IsTrans Row nameIdLe where
  trans a b c := by
    rintro (h₁ | ⟨h₁, h₁'⟩) (h₂ | ⟨h₂, h₂'⟩)
    · exact .inl (keyLt_trans h₁ h₂)
    · exact .inl (h₂ ▸ h₁)
    · exact .inl (h₁ ▸ h₂)
    · exact .inr ⟨h₁.trans h₂, h₁'.trans h₂'⟩

instance idLeTotal : IsTotal Row idLe := ⟨fun a b => le_total a.id b.id⟩
instance idLeTrans : IsTrans Row idLe := ⟨fun _ _ _ => le_trans⟩

/-- Strictly increasing names: what one row per name, ordered by name, looks like. -/
def nameLt (a b : Row) : Prop := keyLt a.name b.name

instance nameLtIrrefl : IsIrrefl Row nameLt := ⟨fun a => keyLt_irrefl a.name⟩
instance nameLtTrans : IsTrans Row nameLt := ⟨fun _ _ _ => keyLt_trans⟩
instance nameLtAntisymm : IsAntisymm Row nameLt :=
  ⟨fun _ _ h₁ h₂ => absurd (keyLt_trans h₁ h₂) (keyLt_irrefl _)⟩

/-- The rows a statement bounded by `mkv.id <= revision` sees; no bound when `revision` is none. -/
def atRevision (rows : List Row) (revision : Option Int) : List Row :=
  rows.filter (fun m => revision.all (m.id ≤ ·))

theorem mem_of_mem_atRevision {rows : List Row} {revision : Option Int} {r : Row}
    (h : r ∈ atRevision rows revision) : r ∈ rows :=
  List.mem_of_mem_filter h

/-- The inner aggregate of listSQL and revisionAfterSQL:
`SELECT MAX(mkv.id) AS id FROM kine mkv WHERE ... GROUP BY mkv.name`. -/
def maxIdsByName (rows : List Row) (keep : Row → Bool) : List Int :=
  let inner := rows.filter keep
  (inner.map Row.name).dedup.filterMap (fun n => (latest inner n).map Row.id)

/-- listSQL: the row at each name's MAX(id) within the range, with GetCurrentSQL's empty filter
(`revision = none`) or ListRevisionStartSQL's `AND mkv.id <= ?`; tombstones only with includeDeleted. -/
def listSQL (rows : List Row) (range : Bytes × Bytes) (revision : Option Int)
    (includeDeleted : Bool) : List Row :=
  let maxkv := maxIdsByName rows (fun m => InRange range m.name ∧ revision.all (m.id ≤ ·))
  (rows.filter (fun kv => kv.id ∈ maxkv ∧ (!kv.deleted || includeDeleted))).insertionSort nameIdLe

/-- revisionAfterSQL (GetRevisionAfterSQL): the same self-join, bounded by the revision, under an
outer `SELECT *` with `? OR kv.deleted = 0`. -/
def revisionAfterSQL (rows : List Row) (range : Bytes × Bytes) (revision : Int)
    (includeDeleted : Bool) : List Row :=
  let maxkv := maxIdsByName rows (fun m => InRange range m.name ∧ m.id ≤ revision)
  let lkv := rows.filter (fun kv => kv.id ∈ maxkv ∧ (includeDeleted || !kv.deleted))
  lkv.insertionSort nameIdLe

/-- revSQL: `SELECT MAX(rkv.id) FROM kine`. -/
def revSQL (rows : List Row) : Option Int := sqlMax rows Row.id

/-- `LIMIT ?`, which the Go code appends only for a positive limit. -/
def withLimit (limit : Int) (rows : List Row) : List Row :=
  if 0 < limit then rows.take limit.toNat else rows

namespace Generic

/-- Generic.ListCurrent. -/
def listCurrent (db : Db) (pfx startKey : Bytes) (limit : Int) (includeDeleted : Bool) : List Row :=
  withLimit limit (listSQL db.rows (keyRange pfx startKey) none includeDeleted)

/-- Generic.List: ListRevisionStartSQL from the prefix, GetRevisionAfterSQL past a startKey. -/
def list (db : Db) (pfx startKey : Bytes) (limit revision : Int) (includeDeleted : Bool) : List Row :=
  let (start, end_) := getPrefixRange pfx
  if startKey = [] then withLimit limit (listSQL db.rows (start, end_) (some revision) includeDeleted)
  else withLimit limit (revisionAfterSQL db.rows (startKey ++ ascii "\x01", end_) revision includeDeleted)

/-- Generic.CountCurrent: CountCurrentSQL's `(revSQL), COUNT(*)`, a NULL revision read as 0. -/
def countCurrent (db : Db) (pfx startKey : Bytes) : Int × Int :=
  ((revSQL db.rows).getD 0, (listSQL db.rows (keyRange pfx startKey) none false).length)

/-- Generic.Count: CountRevisionSQL's `(revSQL), COUNT(c.theid)`. -/
def count (db : Db) (pfx startKey : Bytes) (revision : Int) : Int × Int :=
  ((revSQL db.rows).getD 0, (listSQL db.rows (keyRange pfx startKey) (some revision) false).length)

/-- Generic.CurrentRevision; none when MAX(id) is NULL, which the scan into an int64 rejects. -/
def currentRevision (db : Db) : Option Int := revSQL db.rows

/-- Generic.GetCompactRevision: revisionIntervalSQL's `(low, high)`, NULLs read as 0. -/
def getCompactRevision (db : Db) : Int × Int :=
  ((sqlMax (rowsOf db.rows compactRevKey) Row.prevRevision).getD 0, (revSQL db.rows).getD 0)

/-- Generic.AfterPrefix: AfterSQLPrefix, the rows of the prefix's range past `rev`, by id. -/
def afterPrefix (db : Db) (pfx : Bytes) (rev limit : Int) : List Row :=
  withLimit limit ((db.rows.filter (fun kv => InRange (getPrefixRange pfx) kv.name ∧ rev < kv.id)).insertionSort idLe)

/-- Generic.After: AfterSQL, every row past `rev`, by id. -/
def after (db : Db) (rev limit : Int) : List Row :=
  withLimit limit ((db.rows.filter (fun kv => rev < kv.id)).insertionSort idLe)

end Generic

/-- The compact watermark: the low value of GetCompactRevision. -/
def Db.watermark (db : Db) : Int := (Generic.getCompactRevision db).1

theorem rowsOf_filter_name (rows : List Row) (p : Bytes → Prop) [DecidablePred p] (q : Row → Bool)
    (key : Bytes) :
    rowsOf (rows.filter (fun m => p m.name ∧ q m)) key = if p key then rowsOf (rows.filter q) key else [] := by
  split_ifs with h
  · simp only [rowsOf, List.filter_filter]
    congr 1; funext m; by_cases hm : m.name = key <;> simp [hm, h]
  · simp only [rowsOf, List.filter_filter, List.filter_eq_nil_iff]
    intro m _; by_cases hm : m.name = key <;> simp [hm, h]

theorem mem_maxIdsByName {rows : List Row} {keep : Row → Bool} {i : Int} :
    i ∈ maxIdsByName rows keep ↔ ∃ r, latest (rows.filter keep) r.name = some r ∧ r.id = i := by
  simp only [maxIdsByName, List.mem_filterMap, List.mem_dedup, List.mem_map, Option.map_eq_some']
  constructor
  · rintro ⟨_, -, r, hr, rfl⟩
    exact ⟨r, (latest_mem hr).2 ▸ hr, rfl⟩
  · rintro ⟨r, hr, rfl⟩
    exact ⟨r.name, ⟨r, (latest_mem hr).1, rfl⟩, r, hr, rfl⟩

/-- What listSQL returns: each in-range name's latest row at the revision, live unless includeDeleted. -/
theorem mem_listSQL (db : Db) {range : Bytes × Bytes} {revision : Option Int} {includeDeleted : Bool}
    {kv : Row} :
    kv ∈ listSQL db.rows range revision includeDeleted ↔
      InRange range kv.name ∧ latest (atRevision db.rows revision) kv.name = some kv ∧
        (kv.deleted = false ∨ includeDeleted = true) := by
  have hlatest : ∀ key, latest (db.rows.filter (fun m => InRange range m.name ∧ revision.all (m.id ≤ ·))) key =
      if InRange range key then latest (atRevision db.rows revision) key else none := by
    intro key
    unfold latest
    rw [rowsOf_filter_name db.rows (InRange range) (fun m => revision.all (m.id ≤ ·)) key]
    split_ifs <;> rfl
  simp only [listSQL, List.mem_insertionSort, List.mem_filter, mem_maxIdsByName, hlatest,
    Bool.and_eq_true, decide_eq_true_eq, Bool.or_eq_true, Bool.not_eq_true']
  constructor
  · rintro ⟨hkv, ⟨r, hr, hid⟩, hd⟩
    split_ifs at hr with hin
    have hrkv := db.id_injective (List.mem_of_mem_filter (latest_mem hr).1) hkv hid
    subst hrkv
    exact ⟨hin, hr, hd⟩
  · rintro ⟨hin, hr, hd⟩
    exact ⟨List.mem_of_mem_filter (latest_mem hr).1, ⟨kv, by simpa [hin] using hr, rfl⟩, hd⟩

theorem listSQL_nodup (db : Db) (range : Bytes × Bytes) (revision : Option Int) (includeDeleted : Bool) :
    (listSQL db.rows range revision includeDeleted).Nodup :=
  ((List.perm_insertionSort _ _).nodup_iff).mpr
    ((List.Nodup.of_map Row.id db.nodup).filter _)

/-- listSQL returns one row per name, in increasing name order. -/
theorem listSQL_sorted (db : Db) (range : Bytes × Bytes) (revision : Option Int) (includeDeleted : Bool) :
    (listSQL db.rows range revision includeDeleted).Sorted nameLt := by
  have hs : (listSQL db.rows range revision includeDeleted).Sorted nameIdLe := List.sorted_insertionSort _ _
  refine (hs.and (listSQL_nodup db range revision includeDeleted)).imp_of_mem ?_
  intro a b ha hb ⟨hab, hne⟩
  rcases hab with h | ⟨h, -⟩
  · exact h
  · have ha' := ((mem_listSQL db).mp ha).2.1
    have hb' := ((mem_listSQL db).mp hb).2.1
    rw [h, hb'] at ha'
    exact absurd (Option.some.inj ha').symm hne

theorem revisionAfterSQL_eq_listSQL (rows : List Row) (range : Bytes × Bytes) (revision : Int)
    (includeDeleted : Bool) :
    revisionAfterSQL rows range revision includeDeleted = listSQL rows range (some revision) includeDeleted := by
  simp [revisionAfterSQL, listSQL, Bool.or_comm]

theorem withLimit_of_nonpos {limit : Int} (h : limit ≤ 0) (rows : List Row) : withLimit limit rows = rows := by
  simp [withLimit, not_lt.mpr h]

/-- Generic.List reads the range keyRange builds, whichever statement serves it. -/
theorem list_eq (db : Db) (pfx startKey : Bytes) (limit revision : Int) (includeDeleted : Bool) :
    Generic.list db pfx startKey limit revision includeDeleted =
      withLimit limit (listSQL db.rows (keyRange pfx startKey) (some revision) includeDeleted) := by
  by_cases h : startKey = [] <;> simp [Generic.list, keyRange, h, revisionAfterSQL_eq_listSQL, getPrefixRange_fst]

/-- Count's count is the length of the listing without limit or tombstones. -/
theorem count_eq_length (db : Db) (pfx startKey : Bytes) (revision : Int) :
    (Generic.count db pfx startKey revision).2 = (Generic.list db pfx startKey 0 revision false).length := by
  rw [list_eq, withLimit_of_nonpos le_rfl]
  rfl

theorem withLimit_map (limit : Int) (f : Row → Row) (rows : List Row) :
    withLimit limit (rows.map f) = (withLimit limit rows).map f := by
  unfold withLimit
  split_ifs <;> simp [List.map_take]

/-- Rows with distinct ids, ordered by id, are in strictly increasing id order. -/
theorem sorted_insertionSort_idLe {l : List Row} (hl : (l.map Row.id).Nodup) : (l.insertionSort idLe).Sorted idLt := by
  have hs : (l.insertionSort idLe).Sorted idLe := List.sorted_insertionSort _ _
  have hn : ((l.insertionSort idLe).map Row.id).Nodup := ((List.perm_insertionSort _ _).map _).nodup_iff.mpr hl
  exact (hs.and (List.pairwise_map.mp hn)).imp fun ⟨hle, hne⟩ => lt_of_le_of_ne hle hne

/-- A revision bound at or above every id bounds nothing. -/
theorem listSQL_none_of_le {rows : List Row} {R : Int} (hR : ∀ r ∈ rows, r.id ≤ R) (range : Bytes × Bytes)
    (includeDeleted : Bool) : listSQL rows range none includeDeleted = listSQL rows range (some R) includeDeleted := by
  have h : rows.filter (fun m => decide (InRange range m.name ∧ (none : Option Int).all (m.id ≤ ·))) =
      rows.filter (fun m => decide (InRange range m.name ∧ (some R).all (m.id ≤ ·))) :=
    List.filter_congr fun m hm => by simp [hR m hm]
  simp only [listSQL, maxIdsByName, h]

/-- A sample table: the marker at id 1, /a created at 2 and updated at 3, /b created at 4 and /c at 5,
each row as CreateSQL or UpdateSQL inserts it. -/
def sampleDb : Db :=
  ((((Db.init 1).append ⟨2, ascii "/a", true, false, 0, 0, 0, some (ascii "1"), none⟩ (by decide)).append
    ⟨3, ascii "/a", false, false, 2, 2, 0, some (ascii "3"), some (ascii "1")⟩ (by decide)).append
    ⟨4, ascii "/b", true, false, 0, 0, 0, some (ascii "2"), none⟩ (by decide)).append
    ⟨5, ascii "/c", true, false, 0, 0, 0, some (ascii "4"), none⟩ (by decide)

/-- List at the current revision is ListCurrent, and Count is CountCurrent: GetCurrentSQL and
CountCurrentSQL read what ListRevisionStartSQL, GetRevisionAfterSQL and CountRevisionSQL read at
MAX(id). -/
theorem list_at_current_revision (db : Db) {R : Int} (hR : Generic.currentRevision db = some R)
    (pfx startKey : Bytes) (limit : Int) (includeDeleted : Bool) :
    Generic.list db pfx startKey limit R includeDeleted = Generic.listCurrent db pfx startKey limit includeDeleted ∧
      Generic.count db pfx startKey R = Generic.countCurrent db pfx startKey := by
  have hle : ∀ r ∈ db.rows, r.id ≤ R := fun r hr =>
    (sqlMax_eq_some_iff.mp hR).2 r hr
  rw [list_eq, Generic.listCurrent, Generic.count, Generic.countCurrent, listSQL_none_of_le hle,
    listSQL_none_of_le hle]
  exact ⟨rfl, rfl⟩

theorem list_at_current_revision_sample : Generic.currentRevision sampleDb = some 5 ∧
    (Generic.list sampleDb (ascii "/") [] 2 5 true = Generic.listCurrent sampleDb (ascii "/") [] 2 true ∧
      Generic.count sampleDb (ascii "/") [] 5 = Generic.countCurrent sampleDb (ascii "/") []) :=
  ⟨by decide, list_at_current_revision sampleDb (by decide) (ascii "/") [] 2 true⟩

/-- AfterPrefix returns After's rows in the prefix's range, in the same order. -/
theorem afterPrefix_eq_filter_after (db : Db) (pfx : Bytes) (rev limit : Int) :
    Generic.afterPrefix db pfx rev limit =
      withLimit limit ((Generic.after db rev 0).filter (fun kv => InRange (getPrefixRange pfx) kv.name)) := by
  have hnd : ∀ p : Row → Bool, ((db.rows.filter p).map Row.id).Nodup :=
    fun p => db.nodup.sublist ((List.filter_sublist _).map _)
  rw [Generic.afterPrefix, Generic.after, withLimit_of_nonpos le_rfl]
  congr 1
  refine eq_of_sorted_of_mem_iff (sorted_insertionSort_idLe (hnd _))
    ((sorted_insertionSort_idLe (hnd _)).filter _) fun r => ?_
  simp only [List.mem_insertionSort, List.mem_filter, decide_eq_true_eq, and_assoc]
  exact ⟨fun ⟨hr, hin, hlt⟩ => ⟨hr, hlt, hin⟩, fun ⟨hr, hlt, hin⟩ => ⟨hr, hin, hlt⟩⟩

end K8sDqlite
