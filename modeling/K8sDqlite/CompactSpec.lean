import K8sDqlite.Reads

namespace K8sDqlite

/-- Apart from the marker, tryCompact keeps exactly the rows neither of its DELETEs hits. -/
theorem mem_tryCompact_iff_of_ne {db : Db} {start end_ : Int} {r : Row} (hr : r.name ≠ compactRevKey) :
    r ∈ (Generic.tryCompact db start end_).rows ↔
      r ∈ db.rows ∧ r.id ∉ supersededIds db.rows start end_ ∧ inWindowTombstone start end_ r = false := by
  rw [tryCompact_rows, List.mem_map]
  constructor
  · rintro ⟨x, hx, rfl⟩
    rw [raiseMarker_name] at hr
    rw [raiseMarker_of_ne hr]
    obtain ⟨hx, htomb⟩ := List.mem_filter.mp hx
    obtain ⟨hx, hsup⟩ := List.mem_filter.mp hx
    exact ⟨hx, of_decide_eq_true hsup, by simpa using htomb⟩
  · rintro ⟨hm, hsup, htomb⟩
    exact ⟨r, List.mem_filter.mpr ⟨List.mem_filter.mpr ⟨hm, decide_eq_true hsup⟩, by simpa using htomb⟩,
      raiseMarker_of_ne hr⟩

namespace Inv

variable {sid : Nat} {s : Sys}

/-- The rows whose names IsFill accepts are exactly the gap rows. -/
theorem isFill_iff (h : Inv sid s) {r : Row} (hr : r ∈ s.db.rows) : Generic.isFill r.name = true ↔ r = fillRow r.id := by
  refine ⟨fun hfill => ?_, fun hrf => by rw [hrf]; exact isFill_fillName _⟩
  rcases h.names r hr with hrc | hrk | hrf
  · rw [hrc, isFill_compactRevKey] at hfill; exact absurd hfill Bool.false_ne_true
  · rw [hrk.2] at hfill; exact absurd hfill Bool.false_ne_true
  · exact hrf

/-- A gap row stays unless it is in the window or a client row updated or deleted in the window
links to its id. -/
theorem gap_tryCompact (h : Inv sid s) (start end_ : Int) {r : Row} (hr : r ∈ s.db.rows)
    (hfill : Generic.isFill r.name = true) :
    r ∈ (Generic.tryCompact s.db start end_).rows ↔ ¬ (start < r.id ∧ r.id ≤ end_) ∧
      ¬ ∃ y ∈ s.db.rows, ClientKey y.name ∧ y.created = false ∧ start < y.id ∧ y.id ≤ end_ ∧
        y.prevRevision = r.id := by
  have hrf : r = fillRow r.id := (h.isFill_iff hr).mp hfill
  have hrc : r.name ≠ compactRevKey := fun e => by rw [e, isFill_compactRevKey] at hfill; exact Bool.false_ne_true hfill
  have hdel : r.deleted = true := by rw [hrf]; rfl
  have htomb : inWindowTombstone start end_ r = false ↔ ¬ (start < r.id ∧ r.id ≤ end_) := by
    simp [inWindowTombstone, hdel]
  rw [mem_tryCompact_iff_of_ne hrc, mem_supersededIds, htomb]
  simp only [hr, true_and]
  refine and_comm.trans (and_congr_right' (not_congr ⟨?_, ?_⟩))
  · rintro ⟨y, hy, hyc, hcr, hy0, hs, he, hyr⟩
    rcases h.names y hy with hyc' | hyk | hyf
    · exact absurd hyc' hyc
    · exact ⟨y, hy, hyk, hcr, hs, he, hyr⟩
    · exact absurd (by rw [hyf]; rfl) hy0
  · rintro ⟨y, hy, hyk, hcr, hs, he, hyr⟩
    exact ⟨y, hy, hyk.1, hcr, h.created_prev y hy hyk hcr, hs, he, hyr⟩

/-- Generic.Compact alone compacts each client key to the revision asked for, clamped to the current
revision; below the watermark that changes nothing. -/
theorem rowsOf_compact (h : Inv sid s) (revision : Int) {k : Bytes} (hk : ClientKey k) :
    rowsOf (Generic.compact s.db revision).rows k =
      compacted (rowsOf s.db.rows k) (min revision (Generic.getCompactRevision s.db).2) := by
  rw [compact_eq]
  split_ifs with hw
  · exact h.rowsOf_tryCompact_eq le_rfl _ hk
  · exact (compacted_idem (h.below hk) ((min_le_left _ _).trans (not_lt.mp hw))).symm

end Inv

/-- One compaction transaction does its job from any start at or below the watermark: it compacts each
client key to the window's end, removes only the gap rows the window reaches, and raises the marker. -/
theorem tryCompact_effect {sid : Nat} {s : Sys} (hs : Reachable ClientKey sid s) {start : Int}
    (hstart : start ≤ s.db.watermark) (end_ : Int) :
    (∀ k, ClientKey k → rowsOf (Generic.tryCompact s.db start end_).rows k = compacted (rowsOf s.db.rows k) end_) ∧
    (∀ r ∈ s.db.rows, Generic.isFill r.name = true →
      (r ∈ (Generic.tryCompact s.db start end_).rows ↔ ¬ (start < r.id ∧ r.id ≤ end_) ∧
        ¬ ∃ y ∈ s.db.rows, ClientKey y.name ∧ y.created = false ∧ start < y.id ∧ y.id ≤ end_ ∧
          y.prevRevision = r.id)) ∧
    (∀ r ∈ s.db.rows, r.name ≠ compactRevKey → end_ < r.id → r ∈ (Generic.tryCompact s.db start end_).rows) ∧
    (∀ r ∈ (Generic.tryCompact s.db start end_).rows, r ∈ s.db.rows ∨ r = marker sid (max s.db.watermark end_)) ∧
    rowsOf (Generic.tryCompact s.db start end_).rows compactRevKey = [marker sid (max s.db.watermark end_)] ∧
    (Generic.tryCompact s.db start end_).watermark = max s.db.watermark end_ := by
  have h := hs.inv
  refine ⟨fun k hk => h.rowsOf_tryCompact_eq hstart end_ hk, fun r hr hfill => h.gap_tryCompact start end_ hr hfill,
    fun r hr hrc he => (h.mem_tryCompact_iff he hrc).mpr hr, fun r hr => ?_, h.marker_tryCompact start end_,
    h.watermark_tryCompact start end_⟩
  by_cases hrc : r.name = compactRevKey
  · exact .inr (List.mem_singleton.mp (h.marker_tryCompact start end_ ▸ mem_rowsOf.mpr ⟨hr, hrc⟩))
  · exact .inl (mem_tryCompact_of_ne hr hrc)

theorem tryCompact_effect_compacted :
    let s := sampleCompacted
    Reachable ClientKey 1 s ∧ (4 : Int) ≤ s.db.watermark ∧
    ((∀ k, ClientKey k → rowsOf (Generic.tryCompact s.db 4 7).rows k = compacted (rowsOf s.db.rows k) 7) ∧
    (∀ r ∈ s.db.rows, Generic.isFill r.name = true →
      (r ∈ (Generic.tryCompact s.db 4 7).rows ↔ ¬ (4 < r.id ∧ r.id ≤ 7) ∧
        ¬ ∃ y ∈ s.db.rows, ClientKey y.name ∧ y.created = false ∧ 4 < y.id ∧ y.id ≤ 7 ∧
          y.prevRevision = r.id)) ∧
    (∀ r ∈ s.db.rows, r.name ≠ compactRevKey → 7 < r.id → r ∈ (Generic.tryCompact s.db 4 7).rows) ∧
    (∀ r ∈ (Generic.tryCompact s.db 4 7).rows, r ∈ s.db.rows ∨ r = marker 1 (max s.db.watermark 7)) ∧
    rowsOf (Generic.tryCompact s.db 4 7).rows compactRevKey = [marker 1 (max s.db.watermark 7)] ∧
    (Generic.tryCompact s.db 4 7).watermark = max s.db.watermark 7) := by
  intro s
  exact ⟨sampleCompacted_reachable, by decide, tryCompact_effect sampleCompacted_reachable (by decide) 7⟩

/-- A Fill that reuses the id of a compacted row is deleted by a later compaction through the link
the client key keeps to that id, though the id lies below the window. -/
theorem tryCompact_removes_reused_gap :
    let s₁ := (Sys.init 1).write (.create (ascii "foo") (some (ascii "v1")) 0) 2 (by decide)
    let s₂ := s₁.write (.update (ascii "foo") (some (ascii "v2")) 2 0) 3 (by decide)
    let s₃ := (s₂.compactRead 2).compactCommit ⟨2, 0, 2⟩
    let s₄ := (s₃.compactRead 3).compactCommit ⟨3, 2, 3⟩
    let s₅ := s₄.fill 2
    Reachable ClientKey 1 s₅ ∧ s₅.db.watermark = 3 ∧ fillRow 2 ∈ s₅.db.rows ∧
      fillRow 2 ∉ (Generic.tryCompact s₅.db 2 3).rows := by
  intro s₁ s₂ s₃ s₄ s₅
  refine ⟨?_, by decide, by decide, by decide⟩
  exact ((((((Reachable.write .refl _ _ _ (by decide)).write _ _ _ (by decide)).compactRead 2).compactCommit _
    (by decide)).compactRead 3).compactCommit _ (by decide)).fill 2 (by decide)

/-- Compacting to the current revision when the newest row is a tombstone deletes that row:
CurrentRevision, read as MAX(id), falls from 3 to 1, below the new watermark 3. -/
theorem compact_lowers_current_revision :
    ∃ s s' : Sys, s = (((Sys.init 1).write (.create (ascii "foo") (some (ascii "bar")) 0) 2 (by decide)).write
        (.delete (ascii "foo") 2) 3 (by decide)).compactRead 3 ∧ s' = s.compactCommit ⟨3, 0, 3⟩ ∧
      Reachable ClientKey 1 s ∧ Step ClientKey s s' ∧ Generic.currentRevision s.db = some 3 ∧
      Generic.currentRevision s'.db = some 1 ∧ s'.db.watermark = 3 :=
  ⟨_, _, rfl, rfl, ((Reachable.write .refl _ _ _ (by decide)).write _ _ _ (by decide)).compactRead 3,
    .compactCommit _ _ (by decide), by decide, by decide, by decide⟩

end K8sDqlite
