import K8sDqlite.CompactSpec

namespace K8sDqlite

theorem le_watermark {db : Db} {r : Row} (hr : r ∈ db.rows) (hn : r.name = compactRevKey) :
    r.prevRevision ≤ db.watermark := by
  have hm : r ∈ rowsOf db.rows compactRevKey := mem_rowsOf.mpr ⟨hr, hn⟩
  rcases h : sqlMax (rowsOf db.rows compactRevKey) Row.prevRevision with _ | m
  · rw [sqlMax_eq_none_iff] at h; rw [h] at hm; exact absurd hm (List.not_mem_nil _)
  · have hw : db.watermark = m := by simp [Db.watermark, Generic.getCompactRevision, h]
    exact hw ▸ (sqlMax_eq_some_iff.mp h).2 r hm

theorem exists_watermark {db : Db} (h : ∃ r ∈ db.rows, r.name = compactRevKey) :
    ∃ r ∈ db.rows, r.name = compactRevKey ∧ r.prevRevision = db.watermark := by
  obtain ⟨r, hr, hn⟩ := h
  rcases hm : sqlMax (rowsOf db.rows compactRevKey) Row.prevRevision with _ | m
  · rw [sqlMax_eq_none_iff] at hm
    exact absurd (hm ▸ mem_rowsOf.mpr ⟨hr, hn⟩) (List.not_mem_nil _)
  · obtain ⟨⟨c, hc, hcm⟩, -⟩ := sqlMax_eq_some_iff.mp hm
    exact ⟨c, (mem_rowsOf.mp hc).1, (mem_rowsOf.mp hc).2, by simp [Db.watermark, Generic.getCompactRevision, hm, hcm]⟩

theorem watermark_le_of {db : Db} {b : Int} (h : ∃ r ∈ db.rows, r.name = compactRevKey)
    (hb : ∀ r ∈ db.rows, r.name = compactRevKey → r.prevRevision ≤ b) : db.watermark ≤ b := by
  obtain ⟨c, hc, hcn, hcw⟩ := exists_watermark h
  exact hcw ▸ hb c hc hcn

theorem raiseMarker_prevRevision {revision : Int} {r : Row} (h : r.name = compactRevKey) :
    (raiseMarker revision r).prevRevision = max r.prevRevision revision := by
  simp [raiseMarker, h]

/-- A Fill leaves the watermark: its row is not of the marker's name. -/
theorem watermark_fill (db : Db) (revision : Int) : (Generic.fill db revision).1.watermark = db.watermark := by
  unfold Generic.fill
  split
  · rfl
  · exact Db.watermark_congr (by
      rw [Db.appendAt_rows, rowsOf_append, rowsOf_singleton,
        if_neg (show (fillRow revision).name ≠ compactRevKey from fillName_ne_compactRevKey revision), List.append_nil])

/-- A write to another name leaves the watermark. -/
theorem watermark_write_of_ne (db : Db) (w : Write) (id : Int) (hid : db.seq < id) (hk : w.key ≠ compactRevKey) :
    (Generic.write db w id hid).1.watermark = db.watermark := by
  rcases hy : w.select db.rows id with _ | y
  · rw [Generic.write_of_select_none hid hy]
  · refine Db.watermark_congr ?_
    rw [(Generic.write_of_select_some hid hy).1, rowsOf_append, rowsOf_singleton,
      if_neg ((Write.select_spec _ _ w hy).1 ▸ hk), List.append_nil]

/-- A write never lowers the watermark: it only adds a row. -/
theorem watermark_le_write (db : Db) (w : Write) (id : Int) (hid : db.seq < id) :
    db.watermark ≤ (Generic.write db w id hid).1.watermark := by
  rcases hy : w.select db.rows id with _ | y
  · rw [Generic.write_of_select_none hid hy]
  obtain ⟨hrows, -⟩ := Generic.write_of_select_some hid hy
  by_cases hc : ∃ r ∈ db.rows, r.name = compactRevKey
  · obtain ⟨c, hc, hcn, hcw⟩ := exists_watermark hc
    exact hcw ▸ le_watermark (hrows ▸ List.mem_append_left _ hc) hcn
  · have h0 : db.watermark = 0 := by
      have : rowsOf db.rows compactRevKey = [] :=
        List.eq_nil_iff_forall_not_mem.mpr fun r hr => hc ⟨r, (mem_rowsOf.mp hr).1, (mem_rowsOf.mp hr).2⟩
      simp [Db.watermark, Generic.getCompactRevision, this, sqlMax]
    rw [h0]
    by_cases hyn : y.name = compactRevKey
    · obtain ⟨hname, hprev, -⟩ := Write.select_spec _ _ w hy
      have hl : latest db.rows w.key = none :=
        latest_eq_none.mpr fun r hr hrn => hc ⟨r, hr, hrn.trans (hname.symm.trans hyn)⟩
      have hy0 : y.prevRevision = 0 := by rw [hprev, hl]; rfl
      exact hy0 ▸ le_watermark (hrows ▸ List.mem_append_right _ (List.mem_singleton_self y)) hyn
    · rw [watermark_write_of_ne db w id hid ((Write.select_spec _ _ w hy).1 ▸ hyn), h0]

/-- What every state of a run on any keys keeps: the marker row present and live, no compaction link
reaching a row of its name or past the counter, and each Compact in flight ending at its revision. -/
structure MarkerInv (sid : Nat) (s : Sys) : Prop where
  marker : ∃ m ∈ s.db.rows, m.id = sid ∧ m.name = compactRevKey ∧ m.deleted = false ∧
    ∀ c ∈ s.db.rows, c.name = compactRevKey → c.deleted = true →
      c.prevRevision < c.id ∨ c.prevRevision ≤ m.prevRevision
  no_link : ∀ x ∈ s.db.rows, ∀ y ∈ s.db.rows, x.name = compactRevKey → y.name ≠ compactRevKey →
    y.created = false → y.prevRevision ≠ 0 → y.prevRevision ≠ x.id
  prev_le : ∀ y ∈ s.db.rows, y.name ≠ compactRevKey → y.prevRevision ≤ s.db.seq
  pending : ∀ c ∈ s.pending, c.end_ ≤ c.revision

namespace MarkerInv

variable {sid : Nat} {s : Sys}

theorem sid_le (h : MarkerInv sid s) : (sid : Int) ≤ s.db.seq := by
  obtain ⟨m, hm, hmid, -⟩ := h.marker
  exact hmid ▸ s.db.le_seq m hm

theorem write (h : MarkerInv sid s) (w : Write) (id : Int) (hid : s.db.seq < id) :
    MarkerInv sid (s.write w id hid) := by
  rcases hy : w.select s.db.rows id with _ | y
  · have : s.write w id hid = { s with hist := s.hist.write id w } := by
      simp [Sys.write, Generic.write_of_select_none hid hy, hy]
    rw [this]; exact { h with }
  obtain ⟨hrows, hseq, -⟩ := Generic.write_of_select_some hid hy
  have hname := (Write.select_spec _ _ w hy).1
  have hyid : y.id = id := w.select_id y hy
  have hlt := s.db.lt_of_seq_lt hid
  have hsid := h.sid_le
  have hmem : ∀ r ∈ (s.write w id hid).db.rows, r ∈ s.db.rows ∨ r = y := by
    intro r hr; rwa [Sys.write_db, hrows, List.mem_append, List.mem_singleton] at hr
  have hyprev := Write.select_prev _ _ w hy
  obtain ⟨m, hm, hmid, hmn, hmd, htomb⟩ := h.marker
  refine ⟨⟨m, by rw [Sys.write_db, hrows]; exact List.mem_append_left _ hm, hmid, hmn, hmd, ?_⟩, ?_, ?_, h.pending⟩
  · intro c hc hcn hcd
    rcases hmem c hc with hc | rfl
    · exact htomb c hc hcn hcd
    · left
      rcases hyprev with h0 | ⟨x, hx, hxp⟩
      · rw [h0, hyid]; omega
      · rw [hxp, hyid]; exact hlt x (latest_mem hx).1
  · intro a ha b hb han hbn hbc hb0
    rcases hmem a ha with ha | rfl <;> rcases hmem b hb with hb | rfl
    · exact h.no_link a ha b hb han hbn hbc hb0
    · rcases hyprev with h0 | ⟨x, hx, hxp⟩
      · exact absurd h0 hb0
      · obtain ⟨hxr, hxn⟩ := latest_mem hx
        rw [hxp]
        intro hxa
        rw [s.db.id_injective hxr ha hxa] at hxn
        exact hbn (hname.trans (hxn.symm.trans han))
    · exact ne_of_lt (lt_of_le_of_lt (h.prev_le b hb hbn) (hyid ▸ hid))
    · exact absurd han hbn
  · intro r hr hrn
    rw [Sys.write_db, hseq]
    rcases hmem r hr with hr | rfl
    · exact (h.prev_le r hr hrn).trans hid.le
    · rcases hyprev with h0 | ⟨x, hx, hxp⟩
      · rw [h0]; omega
      · rw [hxp]; exact (hlt x (latest_mem hx).1).le

theorem fill (h : MarkerInv sid s) (revision : Int) : MarkerInv sid (s.fill revision) := by
  unfold Sys.fill Generic.fill
  split
  · exact { h with }
  rename_i hr
  have hsid := h.sid_le
  have hmem : ∀ r ∈ (s.db.appendAt (fillRow revision) hr).rows, r ∈ s.db.rows ∨ r = fillRow revision := by
    intro r hr; rwa [Db.appendAt_rows, List.mem_append, List.mem_singleton] at hr
  have hfc : (fillRow revision).name ≠ compactRevKey := fillName_ne_compactRevKey revision
  obtain ⟨m, hm, hmid, hmn, hmd, htomb⟩ := h.marker
  refine ⟨⟨m, List.mem_append_left _ hm, hmid, hmn, hmd, fun c hc hcn hcd => ?_⟩, ?_, ?_, h.pending⟩
  · rcases hmem c hc with hc | rfl
    exacts [htomb c hc hcn hcd, absurd hcn hfc]
  · intro a ha b hb han hbn hbc hb0
    rcases hmem a ha with ha | rfl
    · rcases hmem b hb with hb | rfl
      exacts [h.no_link a ha b hb han hbn hbc hb0, absurd rfl hb0]
    · exact absurd han hfc
  · intro r hr hrn
    rw [Db.appendAt_seq]
    rcases hmem r hr with hr | rfl
    · exact (h.prev_le r hr hrn).trans (le_max_left _ _)
    · exact le_trans (by show (0 : Int) ≤ s.db.seq; omega) (le_max_left _ _)

theorem compactRead (h : MarkerInv sid s) (revision : Int) : MarkerInv sid (s.compactRead revision) := by
  rcases s.compactRead_cases revision with he | he <;> rw [he]
  · exact h
  refine { h with pending := fun c hc => ?_ }
  rcases List.mem_cons.mp hc with rfl | hc
  exacts [min_le_left _ _, h.pending c hc]

theorem compactAbandon (h : MarkerInv sid s) (c : CompactCall) : MarkerInv sid (s.compactAbandon c) :=
  { h with pending := fun c' hc' => h.pending c' (List.mem_of_mem_erase hc') }

/-- No row of the marker's name is among the ids tryCompact's first DELETE selects. -/
theorem not_mem_supersededIds (h : MarkerInv sid s) {start end_ : Int} {c : Row} (hc : c ∈ s.db.rows)
    (hcn : c.name = compactRevKey) : c.id ∉ supersededIds s.db.rows start end_ := by
  rw [mem_supersededIds]
  rintro ⟨y, hy, hyn, hyc, hy0, -, -, hyx⟩
  exact h.no_link c hc y hy hcn hyn hyc hy0 hyx

/-- A row of the marker's name outside the window's tombstones stays, raised. -/
theorem raiseMarker_mem_tryCompact (h : MarkerInv sid s) {start end_ : Int} {c : Row} (hc : c ∈ s.db.rows)
    (hcn : c.name = compactRevKey) (htomb : inWindowTombstone start end_ c = false) :
    raiseMarker end_ c ∈ (Generic.tryCompact s.db start end_).rows := by
  rw [tryCompact_rows]
  exact List.mem_map_of_mem _ (List.mem_filter.mpr ⟨List.mem_filter.mpr ⟨hc,
    decide_eq_true (h.not_mem_supersededIds hc hcn)⟩, by simpa using htomb⟩)

theorem compactCommit (h : MarkerInv sid s) (c : CompactCall) : MarkerInv sid (s.compactCommit c) := by
  obtain ⟨m, hm, hmid, hmn, hmd, htomb⟩ := h.marker
  have hmem : ∀ r ∈ (s.compactCommit c).db.rows, ∃ x ∈ s.db.rows, r = raiseMarker c.end_ x := fun r hr => mem_tryCompact hr
  refine ⟨⟨raiseMarker c.end_ m, h.raiseMarker_mem_tryCompact hm hmn (by simp [inWindowTombstone, hmd]),
    by rw [raiseMarker_id, hmid], by rw [raiseMarker_name, hmn], by simp [raiseMarker, hmn, hmd], ?_⟩, ?_, ?_, ?_⟩
  · intro r hr hrn hrd
    obtain ⟨x, hx, rfl⟩ := hmem r hr
    rw [raiseMarker_name] at hrn
    rw [raiseMarker_id, raiseMarker_prevRevision hrn, raiseMarker_prevRevision hmn]
    have hxd : x.deleted = true := by simpa [raiseMarker, hrn] using hrd
    rcases htomb x hx hrn hxd with hlt | hle
    · by_cases he : c.end_ < x.id
      · exact .inl (max_lt hlt he)
      · exact .inr (max_le ((hlt.le.trans (not_lt.mp he)).trans (le_max_right _ _)) (le_max_right _ _))
    · exact .inr (max_le_max hle le_rfl)
  · intro a ha b hb han hbn hbc hb0
    obtain ⟨x, hx, rfl⟩ := hmem a ha
    obtain ⟨y, hy, rfl⟩ := hmem b hb
    rw [raiseMarker_name] at han hbn
    rw [raiseMarker_of_ne hbn] at hbc hb0 ⊢
    rw [raiseMarker_id]
    exact h.no_link x hx y hy han hbn hbc hb0
  · intro r hr hrn
    rw [Sys.compactCommit_db, tryCompact_seq]
    exact h.prev_le r (mem_tryCompact_of_ne hr hrn) hrn
  · exact fun c' hc' => h.pending c' (List.mem_of_mem_erase hc')

/-- A commit moves the watermark from `w` to a `w'` with `w ≤ w' ≤ max w end_`. -/
theorem watermark_tryCompact_bounds (h : MarkerInv sid s) (start end_ : Int) :
    s.db.watermark ≤ (Generic.tryCompact s.db start end_).watermark ∧
      (Generic.tryCompact s.db start end_).watermark ≤ max s.db.watermark end_ := by
  obtain ⟨m, hm, -, hmn, hmd, htomb⟩ := h.marker
  have hm' : raiseMarker end_ m ∈ (Generic.tryCompact s.db start end_).rows :=
    h.raiseMarker_mem_tryCompact hm hmn (by simp [inWindowTombstone, hmd])
  have hm'n : (raiseMarker end_ m).name = compactRevKey := by rw [raiseMarker_name, hmn]
  have hmax : max m.prevRevision end_ ≤ (Generic.tryCompact s.db start end_).watermark :=
    raiseMarker_prevRevision hmn ▸ le_watermark hm' hm'n
  refine ⟨?_, watermark_le_of ⟨_, hm', hm'n⟩ fun r hr hrn => ?_⟩
  · obtain ⟨c, hc, hcn, hcw⟩ := exists_watermark ⟨m, hm, hmn⟩
    rw [← hcw]
    by_cases ht : inWindowTombstone start end_ c = false
    · exact (le_max_left _ _).trans (raiseMarker_prevRevision hcn ▸
        le_watermark (h.raiseMarker_mem_tryCompact hc hcn ht) (by rw [raiseMarker_name, hcn]))
    · simp only [inWindowTombstone, Bool.not_eq_false, decide_eq_true_eq] at ht
      rcases htomb c hc hcn ht.1 with hlt | hle
      · exact (hlt.le.trans ht.2.2).trans ((le_max_right _ _).trans hmax) |>.trans' le_rfl
      · exact hle.trans ((le_max_left _ _).trans hmax)
  · obtain ⟨x, hx, rfl⟩ := mem_tryCompact hr
    rw [raiseMarker_name] at hrn
    rw [raiseMarker_prevRevision hrn]
    exact max_le_max (le_watermark hx hrn) le_rfl

end MarkerInv

/-- Every state of a run on any keys keeps the marker invariant. -/
theorem Reachable.markerInv {keys : Bytes → Prop} {sid : Nat} {s : Sys} (hs : Reachable keys sid s) :
    MarkerInv sid s := by
  induction hs with
  | refl =>
    refine ⟨⟨marker sid 0, List.mem_singleton_self _, rfl, rfl, rfl, fun c hc _ _ => ?_⟩, ?_, ?_, ?_⟩
    · rw [List.mem_singleton.mp hc]; exact .inr le_rfl
    · intro x hx y hy _ hyn; rw [List.mem_singleton.mp hy] at hyn; exact absurd rfl hyn
    · intro y hy hyn; rw [List.mem_singleton.mp hy] at hyn; exact absurd rfl hyn
    · intro c hc; exact absurd hc (List.not_mem_nil _)
  | tail _ hstep ih =>
    cases hstep with
    | write w id hid _ => exact ih.write w id hid
    | fill revision _ => exact ih.fill revision
    | compactRead revision => exact ih.compactRead revision
    | compactCommit c _ => exact ih.compactCommit c
    | compactAbandon c _ => exact ih.compactAbandon c

/-- The watermark moves only through compaction and writes to the marker's own name: a write never
lowers it, and a Compact's commit moves it from `w` to a `w'` with `w ≤ w' ≤ max w r`. -/
theorem watermark_moves_by_compaction {keys : Bytes → Prop} {sid : Nat} {s : Sys} (hs : Reachable keys sid s) :
    (∀ revision, (s.fill revision).db.watermark = s.db.watermark) ∧
    (∀ revision, (s.compactRead revision).db.watermark = s.db.watermark) ∧
    (∀ w id (hid : s.db.seq < id), w.key ≠ compactRevKey → (s.write w id hid).db.watermark = s.db.watermark) ∧
    (∀ w id (hid : s.db.seq < id), s.db.watermark ≤ (s.write w id hid).db.watermark) ∧
    (∀ c ∈ s.pending, s.db.watermark ≤ (s.compactCommit c).db.watermark ∧
      (s.compactCommit c).db.watermark ≤ max s.db.watermark c.revision) := by
  have h := hs.markerInv
  refine ⟨fun revision => watermark_fill s.db revision, fun revision => ?_,
    fun w id hid hk => watermark_write_of_ne s.db w id hid hk, fun w id hid => watermark_le_write s.db w id hid,
    fun c hc => ?_⟩
  · rcases s.compactRead_cases revision with he | he <;> rw [he]
  · obtain ⟨h1, h2⟩ := h.watermark_tryCompact_bounds c.start c.end_
    exact ⟨h1, h2.trans (max_le_max le_rfl (h.pending c hc))⟩

theorem watermark_moves_by_compaction_pending :
    let s := samplePending
    Reachable (fun _ => True) 1 s ∧
      ((∀ revision, (s.fill revision).db.watermark = s.db.watermark) ∧
      (∀ revision, (s.compactRead revision).db.watermark = s.db.watermark) ∧
      (∀ w id (hid : s.db.seq < id), w.key ≠ compactRevKey → (s.write w id hid).db.watermark = s.db.watermark) ∧
      (∀ w id (hid : s.db.seq < id), s.db.watermark ≤ (s.write w id hid).db.watermark) ∧
      (∀ c ∈ s.pending, s.db.watermark ≤ (s.compactCommit c).db.watermark ∧
        (s.compactCommit c).db.watermark ≤ max s.db.watermark c.revision)) := by
  intro s
  have hs : Reachable (fun _ => True) 1 s := samplePending_reachable.mono fun _ _ => trivial
  exact ⟨hs, watermark_moves_by_compaction hs⟩

/-- An Update of the marker's own name moves the watermark without a Compact. -/
theorem update_marker_moves_watermark :
    let s₁ := (Sys.init 1).write (.update compactRevKey none 1 0) 2 (by decide)
    Step (fun _ => True) (Sys.init 1) s₁ ∧ (Sys.init 1).db.watermark = 0 ∧ s₁.db.watermark = 1 :=
  ⟨.write _ _ _ _ trivial, by decide, by decide⟩

end K8sDqlite
