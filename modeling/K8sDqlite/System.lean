import K8sDqlite.KeyRows

namespace K8sDqlite

theorem atRevision_some (rows : List Row) (R : Int) : atRevision rows (some R) = rows.filter (·.id ≤ R) := rfl

theorem latest_append_of_ne {rows : List Row} {r : Row} {key : Bytes} (h : r.name ≠ key) :
    latest (rows ++ [r]) key = latest rows key := by
  simp [latest, rowsOf_singleton, h]

/-- A row above every id becomes its name's row at MAX(id). -/
theorem latest_append_self {rows : List Row} {r : Row} (h : ∀ x ∈ rows, x.id < r.id) :
    latest (rows ++ [r]) r.name = some r := by
  rw [latest, rowsOf_append, rowsOf_singleton, if_pos rfl, List.argmax_concat]
  rcases hm : (rowsOf rows r.name).argmax Row.id with _ | c
  · rfl
  · simp [h c (mem_rowsOf.mp (List.argmax_mem hm)).1]

theorem filter_id_le {rows : List Row} {R : Int} (h : ∀ x ∈ rows, x.id ≤ R) : rows.filter (·.id ≤ R) = rows :=
  List.filter_eq_self.mpr (by simpa using h)

theorem Db.nodup_rowsOf (db : Db) (key : Bytes) : ((rowsOf db.rows key).map Row.id).Nodup :=
  db.nodup.sublist ((List.filter_sublist _).map _)

theorem Db.lt_of_seq_lt (db : Db) {id : Int} (hid : db.seq < id) : ∀ r ∈ db.rows, r.id < id :=
  fun r hr => lt_of_le_of_lt (db.le_seq r hr) hid

theorem Db.watermark_congr {db db' : Db} (h : rowsOf db'.rows compactRevKey = rowsOf db.rows compactRevKey) :
    db'.watermark = db.watermark := by
  simp [Db.watermark, Generic.getCompactRevision, h]

theorem revSQL_getD_le (db : Db) (h : 0 ≤ db.seq) : (revSQL db.rows).getD 0 ≤ db.seq := by
  rcases hm : revSQL db.rows with _ | m
  · exact h
  · obtain ⟨⟨r, hr, rfl⟩, -⟩ := sqlMax_eq_some_iff.mp hm
    exact db.le_seq r hr

/-- A row above every id becomes MAX(id). -/
theorem revSQL_append_of_lt {rows : List Row} {x : Row} (h : ∀ r ∈ rows, r.id < x.id) :
    revSQL (rows ++ [x]) = some x.id := by
  refine sqlMax_eq_some_iff.mpr ⟨⟨x, List.mem_append_right _ (List.mem_singleton_self _), rfl⟩, fun r hr => ?_⟩
  rcases List.mem_append.mp hr with hr | hr
  · exact (h r hr).le
  · rw [List.mem_singleton.mp hr]

theorem revSQL_append {rows : List Row} {m : Int} (hm : revSQL rows = some m) (x : Row) :
    revSQL (rows ++ [x]) = some (max m x.id) := by
  obtain ⟨⟨y, hy, rfl⟩, hle⟩ := sqlMax_eq_some_iff.mp hm
  refine sqlMax_eq_some_iff.mpr ⟨?_, fun r hr => ?_⟩
  · rcases le_total y.id x.id with h | h
    · exact ⟨x, List.mem_append_right _ (List.mem_singleton_self _), (max_eq_right h).symm⟩
    · exact ⟨y, List.mem_append_left _ hy, (max_eq_left h).symm⟩
  · rcases List.mem_append.mp hr with hr | hr
    · exact (hle r hr).trans (le_max_left _ _)
    · rw [List.mem_singleton.mp hr]; exact le_max_right _ _

/-- A table with a row has a MAX(id), at or above every id. -/
theorem revSQL_of_mem {rows : List Row} {x : Row} (hx : x ∈ rows) : ∃ m, revSQL rows = some m ∧ ∀ r ∈ rows, r.id ≤ m := by
  rcases hm : revSQL rows with _ | m
  · simp [revSQL, sqlMax, List.max?_eq_none_iff] at hm
    simp [hm] at hx
  · exact ⟨m, rfl, (sqlMax_eq_some_iff.mp hm).2⟩

theorem mem_supersededIds {rows : List Row} {start end_ i : Int} :
    i ∈ supersededIds rows start end_ ↔ ∃ y ∈ rows, y.name ≠ compactRevKey ∧ y.created = false ∧
      y.prevRevision ≠ 0 ∧ start < y.id ∧ y.id ≤ end_ ∧ y.prevRevision = i := by
  simp [supersededIds, and_assoc]

theorem rowsOf_map_raiseMarker_self (rows : List Row) (revision : Int) :
    rowsOf (rows.map (raiseMarker revision)) compactRevKey = (rowsOf rows compactRevKey).map (raiseMarker revision) := by
  simp only [rowsOf, List.filter_map]
  congr 1
  exact List.filter_congr fun r _ => by simp [Function.comp]

theorem mem_tryCompact {db : Db} {start end_ : Int} {r : Row} (h : r ∈ (Generic.tryCompact db start end_).rows) :
    ∃ x ∈ db.rows, r = raiseMarker end_ x := by
  rw [tryCompact_rows, List.mem_map] at h
  obtain ⟨x, hx, rfl⟩ := h
  exact ⟨x, List.mem_of_mem_filter (List.mem_of_mem_filter hx), rfl⟩

theorem watermark_eq {db : Db} {sid : Nat} {p : Int} (h : rowsOf db.rows compactRevKey = [marker sid p]) :
    db.watermark = p := by
  simp [Db.watermark, Generic.getCompactRevision, h, sqlMax, marker]

@[simp] theorem raiseMarker_marker (sid : Nat) (p e : Int) : raiseMarker e (marker sid p) = marker sid (max p e) := by
  simp [raiseMarker, marker]

@[simp] theorem tryCompact_seq (db : Db) (start end_ : Int) : (Generic.tryCompact db start end_).seq = db.seq := rfl

theorem mem_tryCompact_of_ne {db : Db} {start end_ : Int} {r : Row} (h : r ∈ (Generic.tryCompact db start end_).rows)
    (hr : r.name ≠ compactRevKey) : r ∈ db.rows := by
  rw [tryCompact_rows, List.mem_map] at h
  obtain ⟨x, hx, rfl⟩ := h
  rw [raiseMarker_of_ne (by simpa using hr)]
  exact List.mem_of_mem_filter (List.mem_of_mem_filter hx)

/-- tryCompact removes no row above its window's end, when every link points below its row. -/
theorem mem_tryCompact_of_lt {db : Db} {start end_ : Int} {r : Row} (h : r ∈ db.rows) (he : end_ < r.id)
    (hprev : ∀ y ∈ db.rows, y.name ≠ compactRevKey → y.prevRevision ≠ 0 → y.prevRevision < y.id) :
    raiseMarker end_ r ∈ (Generic.tryCompact db start end_).rows := by
  rw [tryCompact_rows]
  refine List.mem_map_of_mem _ ?_
  simp only [List.mem_filter, h, true_and, supersededIds, List.mem_map, inWindowTombstone,
    decide_eq_true_eq, not_exists, not_and, Bool.not_eq_true', decide_eq_false_iff_not]
  exact ⟨fun y hy hyr => absurd (hyr ▸ hprev y hy.1 hy.2.1 hy.2.2.2.1) (not_lt.mpr (hy.2.2.2.2.2.trans he.le)),
    fun _ _ h => absurd he (not_lt.mpr h)⟩

/-- A Compact call between its GetCompactRevision read and its transaction: the revision it was asked
for and the window `(start, end_]` it read. -/
structure CompactCall where
  revision : Int
  start : Int
  end_ : Int
  deriving DecidableEq, Repr

/-- The table and the Compact calls in flight, with two ghosts: the abstract store after each
successful write, and every row inserted. -/
structure Sys where
  db : Db
  pending : List CompactCall
  hist : History
  log : List Row

namespace Sys

/-- A fresh table, its marker at id `sid`. -/
def init (sid : Nat) : Sys := ⟨Db.init sid, [], [], []⟩

/-- Generic.Create, Generic.Update or Generic.Delete, the engine giving the row the id `id`. -/
def write (s : Sys) (w : Write) (id : Int) (hid : s.db.seq < id) : Sys :=
  { s with db := (Generic.write s.db w id hid).1, hist := s.hist.write id w,
           log := s.log ++ (w.select s.db.rows id).toList }

/-- Generic.Fill. -/
def fill (s : Sys) (revision : Int) : Sys :=
  { s with db := (Generic.fill s.db revision).1,
           log := s.log ++ if (Generic.fill s.db revision).2 then [fillRow revision] else [] }

/-- Generic.Compact's read: a call that finds something to compact waits with its window. -/
def compactRead (s : Sys) (revision : Int) : Sys :=
  match Generic.compactWindow s.db revision with
  | none => s
  | some (start, end_) => { s with pending := ⟨revision, start, end_⟩ :: s.pending }

/-- Generic.Compact's transaction commits. -/
def compactCommit (s : Sys) (c : CompactCall) : Sys :=
  { s with db := Generic.tryCompact s.db c.start c.end_, pending := s.pending.erase c }

/-- Generic.Compact returns an error before its transaction commits. -/
def compactAbandon (s : Sys) (c : CompactCall) : Sys := { s with pending := s.pending.erase c }

@[simp] theorem write_db (s : Sys) (w : Write) (id : Int) (hid) :
    (s.write w id hid).db = (Generic.write s.db w id hid).1 := rfl
@[simp] theorem write_pending (s : Sys) (w : Write) (id : Int) (hid) : (s.write w id hid).pending = s.pending := rfl
@[simp] theorem write_hist (s : Sys) (w : Write) (id : Int) (hid) : (s.write w id hid).hist = s.hist.write id w := rfl
@[simp] theorem write_log (s : Sys) (w : Write) (id : Int) (hid) :
    (s.write w id hid).log = s.log ++ (w.select s.db.rows id).toList := rfl
@[simp] theorem fill_pending (s : Sys) (revision : Int) : (s.fill revision).pending = s.pending := rfl
@[simp] theorem fill_hist (s : Sys) (revision : Int) : (s.fill revision).hist = s.hist := rfl
@[simp] theorem compactCommit_db (s : Sys) (c : CompactCall) :
    (s.compactCommit c).db = Generic.tryCompact s.db c.start c.end_ := rfl
@[simp] theorem compactCommit_pending (s : Sys) (c : CompactCall) :
    (s.compactCommit c).pending = s.pending.erase c := rfl
@[simp] theorem compactCommit_hist (s : Sys) (c : CompactCall) : (s.compactCommit c).hist = s.hist := rfl
@[simp] theorem compactCommit_log (s : Sys) (c : CompactCall) : (s.compactCommit c).log = s.log := rfl

theorem fill_of_not_mem (s : Sys) {revision : Int} (h : revision ∉ s.db.rows.map Row.id) :
    (s.fill revision).db = s.db.appendAt (fillRow revision) h ∧ (s.fill revision).log = s.log ++ [fillRow revision] := by
  simp [fill, Generic.fill, h]

theorem fill_rows (s : Sys) {revision : Int} (h : revision ∉ s.db.rows.map Row.id) :
    (s.fill revision).db.rows = s.db.rows ++ [fillRow revision] := by
  rw [(s.fill_of_not_mem h).1]
  rfl

/-- A read either changes nothing or puts one call in flight, with the watermark it read as its
start and an end at most the current revision and the revision asked for. -/
theorem compactRead_cases (s : Sys) (revision : Int) :
    s.compactRead revision = s ∨
      s.compactRead revision = { s with pending := ⟨revision, s.db.watermark,
        min revision ((revSQL s.db.rows).getD 0)⟩ :: s.pending } := by
  unfold compactRead
  rw [compactWindow_eq]
  split_ifs
  exacts [.inr rfl, .inl rfl]

end Sys

/-- One step of a run whose writes go to keys satisfying `keys`: a write at an id above every id given
out, a Fill of an absent id, and the two halves of a Compact. -/
inductive Step (keys : Bytes → Prop) : Sys → Sys → Prop
  | write (s : Sys) (w : Write) (id : Int) (hid : s.db.seq < id) (hk : keys w.key) : Step keys s (s.write w id hid)
  | fill (s : Sys) (revision : Int) (hr : revision ∉ s.db.rows.map Row.id) : Step keys s (s.fill revision)
  | compactRead (s : Sys) (revision : Int) : Step keys s (s.compactRead revision)
  | compactCommit (s : Sys) (c : CompactCall) (hc : c ∈ s.pending) : Step keys s (s.compactCommit c)
  | compactAbandon (s : Sys) (c : CompactCall) (hc : c ∈ s.pending) : Step keys s (s.compactAbandon c)

/-- The states of the runs from a fresh table whose marker has id `sid`. -/
def Reachable (keys : Bytes → Prop) (sid : Nat) : Sys → Prop :=
  Relation.ReflTransGen (Step keys) (Sys.init sid)

namespace Reachable

variable {keys : Bytes → Prop} {sid : Nat} {s : Sys}

theorem write (hs : Reachable keys sid s) (w : Write) (id : Int) (hid : s.db.seq < id) (hk : keys w.key) :
    Reachable keys sid (s.write w id hid) :=
  .tail hs (.write s w id hid hk)

theorem fill (hs : Reachable keys sid s) (revision : Int) (hr : revision ∉ s.db.rows.map Row.id) :
    Reachable keys sid (s.fill revision) :=
  .tail hs (.fill s revision hr)

theorem compactRead (hs : Reachable keys sid s) (revision : Int) : Reachable keys sid (s.compactRead revision) :=
  .tail hs (.compactRead s revision)

theorem compactCommit (hs : Reachable keys sid s) (c : CompactCall) (hc : c ∈ s.pending) :
    Reachable keys sid (s.compactCommit c) :=
  .tail hs (.compactCommit s c hc)

/-- A run on some keys is a run on any wider set of keys. -/
theorem mono {keys' : Bytes → Prop} (hk : ∀ k, keys k → keys' k) (hs : Reachable keys sid s) :
    Reachable keys' sid s := by
  refine Relation.ReflTransGen.mono (fun s s' h => ?_) hs
  cases h with
  | write w id hid hw => exact .write s w id hid (hk _ hw)
  | fill revision hr => exact .fill s revision hr
  | compactRead revision => exact .compactRead s revision
  | compactCommit c hc => exact .compactCommit s c hc
  | compactAbandon c hc => exact .compactAbandon s c hc

end Reachable

/-- A write as the engine runs it, at the id AUTOINCREMENT gives, is a step of the system. -/
theorem Step.writeNext {keys : Bytes → Prop} {s : Sys} {w : Write} (hk : keys w.key) {out : Db × Int × Bool}
    (h : Generic.writeNext s.db w = some out) :
    Step keys s (s.write w (s.db.seq + 1) (Int.lt_succ _)) ∧ (s.write w (s.db.seq + 1) (Int.lt_succ _)).db = out.1 :=
  ⟨.write s w _ _ hk, by rw [Generic.writeNext_eq_some h]; rfl⟩

/-- A sample run on client keys from a fresh table, marker at id 1: Create /a at 2 and /b at 3,
Update /a at 4, Delete /b at 5. -/
def sampleWrites : Sys :=
  let s₁ := (Sys.init 1).write (.create (ascii "/a") (some (ascii "1")) 0) 2 (by decide)
  let s₂ := s₁.write (.create (ascii "/b") (some (ascii "2")) 0) 3 (by decide)
  let s₃ := s₂.write (.update (ascii "/a") (some (ascii "3")) 2 0) 4 (by decide)
  s₃.write (.delete (ascii "/b") 3) 5 (by decide)

/-- The sample run goes on with Fill(7) and Create /c at 8, then Compact(4) reads its window (0, 4]. -/
def samplePending : Sys :=
  ((sampleWrites.fill 7).write (.create (ascii "/c") (some (ascii "4")) 0) 8 (by decide)).compactRead 4

/-- The sample Compact(4) commits: /a's row 2 goes and the watermark becomes 4. -/
def sampleCompacted : Sys := samplePending.compactCommit ⟨4, 0, 4⟩

theorem sampleWrites_reachable : Reachable ClientKey 1 sampleWrites :=
  (((Reachable.write .refl _ _ _ (by decide)).write _ _ _ (by decide)).write _ _ _ (by decide)).write _ _ _
    (by decide)

theorem sampleWrites_run_pending : Relation.ReflTransGen (Step ClientKey) sampleWrites samplePending :=
  .tail (.tail (.single (.fill _ 7 (by decide))) (.write _ _ _ _ (by decide))) (.compactRead _ 4)

theorem sampleWrites_run_compacted : Relation.ReflTransGen (Step ClientKey) sampleWrites sampleCompacted :=
  .tail sampleWrites_run_pending (.compactCommit _ _ (by decide))

theorem samplePending_reachable : Reachable ClientKey 1 samplePending :=
  sampleWrites_reachable.trans sampleWrites_run_pending

theorem sampleCompacted_reachable : Reachable ClientKey 1 sampleCompacted :=
  sampleWrites_reachable.trans sampleWrites_run_compacted

end K8sDqlite
