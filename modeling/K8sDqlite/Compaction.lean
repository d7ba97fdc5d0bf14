import K8sDqlite.Gap

namespace K8sDqlite

namespace Sys

/-- Generic.Compact alone is its read followed by the commit of the call the read put in flight. -/
theorem compactRead_compactCommit (s : Sys) {revision : Int} (h : s.db.watermark < revision) :
    (s.compactRead revision).compactCommit ⟨revision, s.db.watermark, min revision (Generic.getCompactRevision s.db).2⟩ =
      { s with db := Generic.compact s.db revision } := by
  simp [compactRead, compactCommit, compact_eq, compactWindow_eq, h]

end Sys

/-- Generic.Compact with nothing between its read and its transaction is a run of the system. -/
theorem Reachable.compact {keys : Bytes → Prop} {sid : Nat} {s : Sys} (hs : Reachable keys sid s) (revision : Int) :
    Reachable keys sid { s with db := Generic.compact s.db revision } := by
  by_cases h : s.db.watermark < revision
  · rw [← s.compactRead_compactCommit h]
    exact (hs.compactRead revision).compactCommit _ (by simp [Sys.compactRead, compactWindow_eq, h])
  · rw [compact_eq, if_neg h]
    exact hs

/-- Generic.Compact run alone compacts every client key to the revision asked for, clamped to the
current revision, and raises the watermark to it; once the watermark has reached the revision, it changes nothing. -/
theorem compact_effect {sid : Nat} {s : Sys} (hs : Reachable ClientKey sid s) (revision : Int) :
    Reachable ClientKey sid { s with db := Generic.compact s.db revision } ∧
    (revision ≤ s.db.watermark → Generic.compact s.db revision = s.db) ∧
    (Generic.compact s.db revision).watermark =
      max s.db.watermark (min revision (Generic.getCompactRevision s.db).2) ∧
    ∀ k, ClientKey k → rowsOf (Generic.compact s.db revision).rows k =
      compacted (rowsOf s.db.rows k) (min revision (Generic.getCompactRevision s.db).2) := by
  have h := hs.inv
  refine ⟨hs.compact revision, fun hw => by rw [compact_eq, if_neg (not_lt.mpr hw)], ?_,
    fun k hk => h.rowsOf_compact revision hk⟩
  rw [compact_eq]
  split_ifs with hw
  · exact h.watermark_tryCompact _ _
  · exact (max_eq_left ((min_le_left _ _).trans (not_lt.mp hw))).symm

theorem compact_effect_sample :
    let s := sampleWrites
    Reachable ClientKey 1 s ∧
    (Reachable ClientKey 1 { s with db := Generic.compact s.db 9 } ∧
    ((9 : Int) ≤ s.db.watermark → Generic.compact s.db 9 = s.db) ∧
    (Generic.compact s.db 9).watermark = max s.db.watermark (min 9 (Generic.getCompactRevision s.db).2) ∧
    ∀ k, ClientKey k → rowsOf (Generic.compact s.db 9).rows k =
      compacted (rowsOf s.db.rows k) (min 9 (Generic.getCompactRevision s.db).2)) := by
  intro s
  exact ⟨sampleWrites_reachable, compact_effect sampleWrites_reachable 9⟩

namespace Inv

variable {sid : Nat} {s : Sys}

/-- At a revision from the window's end on, a live row is its name's latest after tryCompact exactly
when it was before. -/
theorem latest_tryCompact_of_live (h : Inv sid s) {start : Int} (hstart : start ≤ s.db.watermark) {end_ R : Int}
    (hR : end_ ≤ R) {kv : Row} (hkv : kv.name ≠ compactRevKey) (hd : kv.deleted = false) :
    latest (atRevision (Generic.tryCompact s.db start end_).rows (some R)) kv.name = some kv ↔
      latest (atRevision s.db.rows (some R)) kv.name = some kv := by
  by_cases hk : ClientKey kv.name
  · rw [latest, latest, atRevision_some, atRevision_some, rowsOf_filter, rowsOf_filter,
      h.rowsOf_tryCompact_eq hstart end_ hk, compacted_filter_le _ hR]
    exact argmax_compacted_of_live ((s.db.nodup_rowsOf _).sublist ((List.filter_sublist _).map _)) end_ hd
  · have hgap : kv ∉ s.db.rows := fun hm => by
      rcases h.names kv hm with hc | hc | hf
      · exact hkv hc
      · exact hk hc
      · rw [hf] at hd; cases hd
    exact iff_of_false (fun hl => hgap (mem_tryCompact_of_ne (mem_of_mem_atRevision (latest_mem hl).1) hkv))
      (fun hl => hgap (mem_of_mem_atRevision (latest_mem hl).1))

/-- From the window's end on, a listing without tombstones after tryCompact is the listing before,
with the marker raised. -/
theorem listSQL_tryCompact (h : Inv sid s) {start : Int} (hstart : start ≤ s.db.watermark) {end_ R : Int}
    (hR : end_ ≤ R) (range : Bytes × Bytes) :
    listSQL (Generic.tryCompact s.db start end_).rows range (some R) false =
      (listSQL s.db.rows range (some R) false).map (raiseMarker end_) := by
  refine eq_of_sorted_of_mem_iff (listSQL_sorted _ _ _ _)
    (List.Pairwise.map _ (fun a b hab => by unfold nameLt; rwa [raiseMarker_name, raiseMarker_name])
      (listSQL_sorted s.db _ _ _)) fun kv => ?_
  simp only [mem_listSQL, List.mem_map, Bool.false_eq_true, or_false]
  by_cases hkc : kv.name = compactRevKey
  · rw [hkc, latest_of_rowsOf_marker (h.marker_tryCompact start end_)]
    constructor
    · rintro ⟨hin, hl, -⟩
      split_ifs at hl with hsid
      refine ⟨marker sid s.db.watermark, ⟨hin, (latest_of_rowsOf_marker h.marker_only R).trans (if_pos hsid), rfl⟩, ?_⟩
      rw [raiseMarker_marker]
      exact Option.some.inj hl
    · rintro ⟨x, ⟨hin, hl, -⟩, rfl⟩
      rw [raiseMarker_name] at hkc
      rw [hkc, latest_of_rowsOf_marker h.marker_only] at hl
      split_ifs at hl with hsid
      obtain rfl := (Option.some.inj hl).symm
      exact ⟨hkc ▸ hin, by rw [if_pos hsid, raiseMarker_marker], rfl⟩
  · constructor
    · rintro ⟨hin, hl, hd⟩
      exact ⟨kv, ⟨hin, (h.latest_tryCompact_of_live hstart hR hkc hd).mp hl, hd⟩, raiseMarker_of_ne hkc⟩
    · rintro ⟨x, ⟨hin, hl, hd⟩, rfl⟩
      have hxc : x.name ≠ compactRevKey := by rwa [raiseMarker_name] at hkc
      rw [raiseMarker_of_ne hxc]
      exact ⟨hin, (h.latest_tryCompact_of_live hstart hR hxc hd).mpr hl, hd⟩

/-- From the window's end on, the rows tryCompact leaves past a revision are the rows before, with
the marker raised: nothing above the window's end is removed. -/
theorem sort_filter_tryCompact (h : Inv sid s) (start : Int) {end_ : Int} (q : Row → Bool)
    (hq : ∀ r, q r = true → end_ < r.id) (hqm : ∀ r, q (raiseMarker end_ r) = q r) :
    ((Generic.tryCompact s.db start end_).rows.filter q).insertionSort idLe =
      ((s.db.rows.filter q).insertionSort idLe).map (raiseMarker end_) := by
  have hnd : ∀ db : Db, ((db.rows.filter q).map Row.id).Nodup := fun db =>
    db.nodup.sublist ((List.filter_sublist _).map _)
  refine eq_of_sorted_of_mem_iff (sorted_insertionSort_idLe (hnd _))
    (List.Pairwise.map _ (fun a b hab => by unfold idLt; rwa [raiseMarker_id, raiseMarker_id])
      (sorted_insertionSort_idLe (hnd s.db))) fun r => ?_
  simp only [List.mem_map, List.mem_insertionSort, List.mem_filter]
  constructor
  · rintro ⟨hr, hqr⟩
    obtain ⟨x, hx, rfl⟩ := mem_tryCompact hr
    exact ⟨x, ⟨hx, hqm x ▸ hqr⟩, rfl⟩
  · rintro ⟨x, ⟨hx, hqx⟩, rfl⟩
    exact ⟨mem_tryCompact_of_lt hx (hq x hqx) h.prev_lt_of_ne, (hqm x).trans hqx⟩

end Inv

/-- A compaction commit changes no read at or above its window's end but the marker's prev_revision:
List, Count, After and AfterPrefix from the window's end on, and ListCurrent and CountCurrent,
return what they returned before, the marker raised. -/
theorem commit_keeps_reads {sid : Nat} {s : Sys} (hs : Reachable ClientKey sid s) {c : CompactCall}
    (hc : c ∈ s.pending) (pfx startKey : Bytes) (limit : Int) :
    (∀ R, c.end_ ≤ R →
      Generic.list (s.compactCommit c).db pfx startKey limit R false =
        (Generic.list s.db pfx startKey limit R false).map (raiseMarker c.end_) ∧
      (Generic.count (s.compactCommit c).db pfx startKey R).2 = (Generic.count s.db pfx startKey R).2 ∧
      Generic.after (s.compactCommit c).db R limit = (Generic.after s.db R limit).map (raiseMarker c.end_) ∧
      Generic.afterPrefix (s.compactCommit c).db pfx R limit =
        (Generic.afterPrefix s.db pfx R limit).map (raiseMarker c.end_)) ∧
    Generic.listCurrent (s.compactCommit c).db pfx startKey limit false =
      (Generic.listCurrent s.db pfx startKey limit false).map (raiseMarker c.end_) ∧
    (Generic.countCurrent (s.compactCommit c).db pfx startKey).2 = (Generic.countCurrent s.db pfx startKey).2 := by
  have h := hs.inv
  obtain ⟨hstart, hend⟩ := h.pending c hc
  have hcur : listSQL (s.compactCommit c).db.rows (keyRange pfx startKey) none false =
      (listSQL s.db.rows (keyRange pfx startKey) none false).map (raiseMarker c.end_) := by
    rw [listSQL_none_of_le (s.compactCommit c).db.le_seq, listSQL_none_of_le s.db.le_seq, Sys.compactCommit_db,
      tryCompact_seq]
    exact h.listSQL_tryCompact hstart hend _
  refine ⟨fun R hR => ⟨?_, ?_, ?_, ?_⟩, ?_, ?_⟩
  · rw [list_eq, list_eq, Sys.compactCommit_db, h.listSQL_tryCompact hstart hR, withLimit_map]
  · simp only [Generic.count, Sys.compactCommit_db, h.listSQL_tryCompact hstart hR, List.length_map]
  · rw [Generic.after, Generic.after, Sys.compactCommit_db, h.sort_filter_tryCompact c.start _
      (fun r hr => lt_of_le_of_lt hR (of_decide_eq_true hr)) (fun r => by rw [raiseMarker_id]), withLimit_map]
  · rw [Generic.afterPrefix, Generic.afterPrefix, Sys.compactCommit_db, h.sort_filter_tryCompact c.start _
      (fun r hr => lt_of_le_of_lt hR (of_decide_eq_true hr).2) (fun r => by rw [raiseMarker_id, raiseMarker_name]),
      withLimit_map]
  · rw [Generic.listCurrent, Generic.listCurrent, hcur, withLimit_map]
  · simp only [Generic.countCurrent, hcur, List.length_map]

theorem commit_keeps_reads_pending :
    let s := samplePending
    let c : CompactCall := ⟨4, 0, 4⟩
    Reachable ClientKey 1 s ∧ c ∈ s.pending ∧
    ((∀ R, c.end_ ≤ R →
      Generic.list (s.compactCommit c).db (ascii "/") [] 0 R false =
        (Generic.list s.db (ascii "/") [] 0 R false).map (raiseMarker c.end_) ∧
      (Generic.count (s.compactCommit c).db (ascii "/") [] R).2 = (Generic.count s.db (ascii "/") [] R).2 ∧
      Generic.after (s.compactCommit c).db R 0 = (Generic.after s.db R 0).map (raiseMarker c.end_) ∧
      Generic.afterPrefix (s.compactCommit c).db (ascii "/") R 0 =
        (Generic.afterPrefix s.db (ascii "/") R 0).map (raiseMarker c.end_)) ∧
    Generic.listCurrent (s.compactCommit c).db (ascii "/") [] 0 false =
      (Generic.listCurrent s.db (ascii "/") [] 0 false).map (raiseMarker c.end_) ∧
    (Generic.countCurrent (s.compactCommit c).db (ascii "/") []).2 = (Generic.countCurrent s.db (ascii "/") []).2) := by
  intro s c
  have hc : c ∈ s.pending := by decide
  exact ⟨samplePending_reachable, hc, commit_keeps_reads samplePending_reachable hc (ascii "/") [] 0⟩

/-- How each step moves CurrentRevision: a successful write sets it to its id, a Fill raises it, and
only a commit whose window reaches MAX(id) can lower it. -/
theorem currentRevision_steps {sid : Nat} {s : Sys} (hs : Reachable ClientKey sid s) {m : Int}
    (hm : Generic.currentRevision s.db = some m) :
    (∀ w id (hid : s.db.seq < id), Generic.currentRevision (s.write w id hid).db =
      if (Generic.write s.db w id hid).2.2 then some id else some m) ∧
    (∀ revision, revision ∉ s.db.rows.map Row.id →
      Generic.currentRevision (s.fill revision).db = some (max m revision)) ∧
    (∀ revision, Generic.currentRevision (s.compactRead revision).db = some m) ∧
    (∀ c ∈ s.pending, c.end_ < m → Generic.currentRevision (s.compactCommit c).db = some m) := by
  have h := hs.inv
  refine ⟨fun w id hid => ?_, fun revision hr => ?_, fun revision => ?_, fun c _ hc => ?_⟩
  · rcases hy : w.select s.db.rows id with _ | y
    · rw [Sys.write_db, Generic.write_of_select_none hid hy]
      exact hm
    · obtain ⟨hrows, -, hok⟩ := Generic.write_of_select_some hid hy
      rw [Sys.write_db, Generic.currentRevision, hrows, hok, if_pos rfl, ← w.select_id y hy]
      exact revSQL_append_of_lt fun r hr => w.select_id y hy ▸ s.db.lt_of_seq_lt hid r hr
  · rw [Generic.currentRevision, s.fill_rows hr]
    exact revSQL_append hm (fillRow revision)
  · rcases s.compactRead_cases revision with he | he <;> rw [he] <;> exact hm
  · obtain ⟨⟨x, hx, rfl⟩, hle⟩ := sqlMax_eq_some_iff.mp hm
    refine sqlMax_eq_some_iff.mpr ⟨⟨raiseMarker c.end_ x, mem_tryCompact_of_lt hx hc h.prev_lt_of_ne,
      raiseMarker_id _ _⟩, fun r hr => ?_⟩
    obtain ⟨y, hy, rfl⟩ := mem_tryCompact hr
    rw [raiseMarker_id]
    exact hle y hy

theorem currentRevision_steps_pending :
    let s := samplePending
    Reachable ClientKey 1 s ∧ Generic.currentRevision s.db = some 8 ∧
    ((∀ w id (hid : s.db.seq < id), Generic.currentRevision (s.write w id hid).db =
      if (Generic.write s.db w id hid).2.2 then some id else some 8) ∧
    (∀ revision, revision ∉ s.db.rows.map Row.id → Generic.currentRevision (s.fill revision).db = some (max 8 revision)) ∧
    (∀ revision, Generic.currentRevision (s.compactRead revision).db = some 8) ∧
    (∀ c ∈ s.pending, c.end_ < 8 → Generic.currentRevision (s.compactCommit c).db = some 8)) := by
  intro s
  exact ⟨samplePending_reachable, by decide, currentRevision_steps samplePending_reachable (by decide)⟩

end K8sDqlite
