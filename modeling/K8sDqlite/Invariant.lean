import K8sDqlite.System

namespace K8sDqlite

/-- What every state of a run on client keys keeps: the marker alone under its name, each client
key's rows its compacted write history, and the ghosts in step with the table above the watermark. -/
structure Inv (sid : Nat) (s : Sys) : Prop where
  marker_only : rowsOf s.db.rows compactRevKey = [marker sid s.db.watermark]
  names : ∀ r ∈ s.db.rows, r.name = compactRevKey ∨ ClientKey r.name ∨ r = fillRow r.id
  id_gt : ∀ r ∈ s.db.rows, ClientKey r.name → sid < r.id
  prev_lt : ∀ r ∈ s.db.rows, ClientKey r.name → r.prevRevision < r.id
  prev_gt : ∀ r ∈ s.db.rows, ClientKey r.name → r.prevRevision ≠ 0 → sid < r.prevRevision
  created_prev : ∀ r ∈ s.db.rows, ClientKey r.name → r.created = false → r.prevRevision ≠ 0
  cross : ∀ x ∈ s.db.rows, ∀ y ∈ s.db.rows, ClientKey x.name → ClientKey y.name →
    y.prevRevision = x.id → x.name = y.name
  links : ∀ k, ClientKey k → ∀ x ∈ rowsOf s.db.rows k, ∀ y ∈ rowsOf s.db.rows k,
    Adjacent (rowsOf s.db.rows k) x y → Follows x y
  present : ∀ k, ClientKey k → rowsOf s.db.rows k = compacted (rowsOf s.log k) s.db.watermark
  watermark_le : s.db.watermark ≤ s.db.seq
  pending : ∀ c ∈ s.pending, c.start ≤ s.db.watermark ∧ c.end_ ≤ s.db.seq
  hist : ∀ R, s.db.watermark ≤ R → ∀ k, ClientKey k →
    s.hist.at R k = (latest (atRevision s.db.rows (some R)) k).bind toEntry
  hist_le : ∀ p ∈ s.hist, p.1 ≤ s.db.seq
  hist_client : ∀ p ∈ s.hist, ∀ k, ¬ ClientKey k → p.2 k = none
  log : ∀ r, s.db.watermark < r.id → (r ∈ s.db.rows ∧ r.name ≠ compactRevKey ↔ r ∈ s.log)
  log_le : ∀ r ∈ s.log, r.id ≤ s.db.seq
  log_sorted : ∀ k, ClientKey k → IdSorted (rowsOf s.log k)

/-- Appending a row other than the marker to both the table and the log keeps them in step above
the watermark. -/
theorem log_append {rows log : List Row} {w : Int} {y : Row}
    (h : ∀ r, w < r.id → (r ∈ rows ∧ r.name ≠ compactRevKey ↔ r ∈ log)) (hy : y.name ≠ compactRevKey) :
    ∀ r, w < r.id → (r ∈ rows ++ [y] ∧ r.name ≠ compactRevKey ↔ r ∈ log ++ [y]) := by
  intro r hr
  rw [List.mem_append, List.mem_append, ← h r hr, List.mem_singleton, or_and_right,
    and_iff_left_of_imp fun (e : r = y) => e ▸ hy]

namespace Inv

variable {sid : Nat} {s : Sys}

theorem sid_le (h : Inv sid s) : (sid : Int) ≤ s.db.seq := by
  have hm : K8sDqlite.marker sid s.db.watermark ∈ s.db.rows := (mem_rowsOf.mp (h.marker_only ▸ List.mem_singleton_self _)).1
  exact s.db.le_seq _ hm

/-- Each client key's rows are compacted to the watermark. -/
theorem below (h : Inv sid s) {k : Bytes} (hk : ClientKey k) :
    compacted (rowsOf s.db.rows k) s.db.watermark = rowsOf s.db.rows k := by
  rw [h.present k hk, compacted_compacted, max_self]

/-- The abstract store is the client keys' rows at MAX(id). -/
theorem hist_current (h : Inv sid s) {k : Bytes} (hk : ClientKey k) :
    s.hist.current k = (latest s.db.rows k).bind toEntry := by
  rw [← History.at_of_le h.hist_le, h.hist _ h.watermark_le k hk, atRevision_some, filter_id_le s.db.le_seq]

/-- A write whose SELECT yields no row changes nothing, the abstract write failing too. -/
theorem write_eq_of_none (h : Inv sid s) {w : Write} (hk : ClientKey w.key) {id : Int} (hid : s.db.seq < id)
    (hn : w.select s.db.rows id = none) : s.write w id hid = s := by
  have habs : s.hist.current.write id w = none := by
    rw [Write.select_store s.db.rows id w _ (h.hist_current hk), hn, Option.map_none']
  simp only [Sys.write, Generic.write_of_select_none hid hn, History.write, habs, hn, Option.toList_none,
    List.append_nil]

theorem write_of_some (h : Inv sid s) {w : Write} (hk : ClientKey w.key) {id : Int} (hid : s.db.seq < id)
    {y : Row} (hy : w.select s.db.rows id = some y) :
    (s.write w id hid).db.rows = s.db.rows ++ [y] ∧ (s.write w id hid).db.seq = id ∧
      (s.write w id hid).hist = s.hist ++ [(id, Function.update s.hist.current w.key (toEntry y))] ∧
      (s.write w id hid).log = s.log ++ [y] := by
  obtain ⟨hrows, hseq, -⟩ := Generic.write_of_select_some hid hy
  have habs := Write.select_store s.db.rows id w _ (h.hist_current hk)
  rw [hy, Option.map_some'] at habs
  exact ⟨hrows, hseq, by simp [History.write, habs], by simp [hy]⟩

section WriteStep

variable (h : Inv sid s) {w : Write} (hk : ClientKey w.key) {id : Int} (hid : s.db.seq < id) {y : Row}
  (hy : w.select s.db.rows id = some y)

include h hk hy

/-- One successful write keeps the invariant. -/
theorem write_some : Inv sid (s.write w id hid) := by
  obtain ⟨hrows, hseq, hhist, hlog⟩ := h.write_of_some hk hid hy
  obtain ⟨hname, hprev, hfollows, hcreated⟩ := Write.select_spec _ _ w hy
  have hyid : y.id = id := w.select_id y hy
  have hlt := s.db.lt_of_seq_lt hid
  have hsid := h.sid_le
  have hyk : ClientKey y.name := hname ▸ hk
  have hyc : y.name ≠ compactRevKey := hyk.1
  have hwm : (s.write w id hid).db.watermark = s.db.watermark :=
    Db.watermark_congr (by rw [hrows, rowsOf_append, rowsOf_singleton, if_neg hyc, List.append_nil])
  have hrowsOf : ∀ k, rowsOf (s.write w id hid).db.rows k = rowsOf s.db.rows k ++ if y.name = k then [y] else [] := by
    intro k; rw [hrows, rowsOf_append, rowsOf_singleton]
  have hyprev := Write.select_prev _ _ w hy
  have hyprev_lt : y.prevRevision < y.id := by
    rcases hyprev with h0 | ⟨x, hx, hxp⟩
    · omega
    · rw [hxp, hyid]; exact hlt x (latest_mem hx).1
  have hmem : ∀ r ∈ (s.write w id hid).db.rows, r ∈ s.db.rows ∨ r = y := by
    intro r hr; rwa [hrows, List.mem_append, List.mem_singleton] at hr
  refine ⟨?marker_only, ?names, ?id_gt, ?prev_lt, ?prev_gt, ?created_prev, ?cross, ?links, ?present, ?wm, ?pending, ?hist, ?hist_le,
    ?hist_client, ?log, ?log_le, ?log_sorted⟩
  case marker_only => rw [hwm, hrowsOf, if_neg hyc, List.append_nil]; exact h.marker_only
  case names =>
    intro r hr
    rcases hmem r hr with hr | rfl
    exacts [h.names r hr, .inr (.inl hyk)]
  case id_gt =>
    intro r hr hrk
    rcases hmem r hr with hr | rfl
    · exact h.id_gt r hr hrk
    · omega
  case prev_lt =>
    intro r hr hrk
    rcases hmem r hr with hr | rfl
    exacts [h.prev_lt r hr hrk, hyprev_lt]
  case prev_gt =>
    intro r hr hrk hr0
    rcases hmem r hr with hr | rfl
    · exact h.prev_gt r hr hrk hr0
    · obtain ⟨x, hx, hxp⟩ := hyprev.resolve_left hr0
      obtain ⟨hxr, hxn⟩ := latest_mem hx
      exact hxp ▸ h.id_gt x hxr (hxn ▸ hk)
  case created_prev =>
    intro r hr hrk hrc
    rcases hmem r hr with hr | rfl
    · exact h.created_prev r hr hrk hrc
    · rcases hl : latest s.db.rows w.key with _ | x
      · exact absurd (hcreated hl) (by simp [hrc])
      · obtain ⟨hxr, hxn⟩ := latest_mem hl
        have := h.id_gt x hxr (hxn ▸ hk)
        rw [hprev, hl]
        simp only [Option.map_some', Option.getD_some]
        omega
  case cross =>
    intro a ha b hb hak hbk hab
    rcases hmem a ha with ha | rfl <;> rcases hmem b hb with hb | rfl
    · exact h.cross a ha b hb hak hbk hab
    · rcases hyprev with h0 | ⟨x, hx, hxp⟩
      · exact absurd (h0 ▸ hab) (by have := h.id_gt a ha hak; omega)
      · obtain ⟨hxr, hxn⟩ := latest_mem hx
        rw [s.db.id_injective ha hxr (hab.symm.trans hxp), hxn, hname]
    · exact absurd (hab ▸ h.prev_lt b hb hbk) (not_lt.mpr (hyid ▸ (hlt b hb).le))
    · exact absurd hab (ne_of_lt hyprev_lt)
  case links =>
    intro k hkk
    rw [hrowsOf]
    by_cases hyn : y.name = k
    · subst hyn
      rw [if_pos rfl]
      exact links_append (s.db.nodup_rowsOf _) (fun c hc => hyid ▸ hlt c (mem_rowsOf.mp hc).1) (h.links _ hyk)
        fun x hx => hfollows x (hname ▸ hx)
    · rw [if_neg hyn, List.append_nil]
      exact h.links k hkk
  case present =>
    intro k hkk
    rw [hwm, hrowsOf, hlog, rowsOf_append, rowsOf_singleton, h.present k hkk]
    split_ifs
    · rw [compacted_append _ _ (by rw [hyid]; exact lt_of_le_of_lt h.watermark_le hid)]
    · rw [List.append_nil, List.append_nil]
  case wm => rw [hwm, hseq]; exact h.watermark_le.trans hid.le
  case pending =>
    intro c hc
    obtain ⟨h1, h2⟩ := h.pending c hc
    rw [hwm, hseq]; exact ⟨h1, h2.trans hid.le⟩
  case hist =>
    intro R hR k hkk
    rw [hwm] at hR
    rw [hhist, hrows, atRevision_some, List.filter_append]
    by_cases hRid : R < id
    · rw [History.at_append_of_lt _ _ hRid, List.filter_singleton, hyid,
        decide_eq_false (not_le.mpr hRid), cond_false, List.append_nil, ← atRevision_some]
      exact h.hist R hR k hkk
    · rw [History.at_append_of_le _ _ (not_lt.mp hRid), List.filter_singleton, hyid,
        decide_eq_true (not_lt.mp hRid), cond_true, filter_id_le (fun x hx => (hlt x hx).le.trans (not_lt.mp hRid))]
      by_cases hyn : y.name = k
      · subst hyn
        rw [latest_append_self (fun x hx => hyid ▸ hlt x hx), hname, Function.update_same]
        rfl
      · rw [Function.update_noteq (Ne.symm (hname ▸ hyn)), latest_append_of_ne hyn, h.hist_current hkk]
  case hist_le =>
    intro p hp
    rw [hhist] at hp
    rw [hseq]
    rcases List.mem_append.mp hp with hp | hp
    · exact (h.hist_le p hp).trans hid.le
    · rw [List.mem_singleton.mp hp]
  case log => rw [hwm, hrows, hlog]; exact log_append h.log hyc
  case hist_client =>
    intro p hp k hk'
    rw [hhist] at hp
    rcases List.mem_append.mp hp with hp | hp
    · exact h.hist_client p hp k hk'
    · rw [List.mem_singleton.mp hp]
      have hne : k ≠ w.key := fun e => hk' (e ▸ hk)
      exact (Function.update_noteq hne _ _).trans (History.current_eq_none fun p hp => h.hist_client p hp k hk')
  case log_le =>
    intro r hr
    rw [hlog] at hr
    rw [hseq]
    rcases List.mem_append.mp hr with hr | hr
    · exact (h.log_le r hr).trans hid.le
    · rw [List.mem_singleton.mp hr, hyid]
  case log_sorted =>
    intro k hkk
    rw [hlog, rowsOf_append, rowsOf_singleton]
    split_ifs
    · exact List.pairwise_append.mpr ⟨h.log_sorted k hkk, List.pairwise_singleton _ _,
        fun a ha b hb => by
          rw [List.mem_singleton.mp hb]
          exact lt_of_le_of_lt (h.log_le a (mem_rowsOf.mp ha).1) (hyid ▸ hid)⟩
    · rw [List.append_nil]; exact h.log_sorted k hkk

end WriteStep

theorem write (h : Inv sid s) {w : Write} (hk : ClientKey w.key) {id : Int} (hid : s.db.seq < id) :
    Inv sid (s.write w id hid) := by
  rcases hy : w.select s.db.rows id with _ | y
  · rw [h.write_eq_of_none hk hid hy]; exact h
  · exact h.write_some hk hid hy

/-- A Fill of an absent id keeps the invariant: its row is no client key's and not the marker. -/
theorem fill (h : Inv sid s) {revision : Int} (hr : revision ∉ s.db.rows.map Row.id) :
    Inv sid (s.fill revision) := by
  obtain ⟨hdb, hlog⟩ := s.fill_of_not_mem hr
  have hfc : (fillRow revision).name ≠ compactRevKey := fillName_ne_compactRevKey revision
  have hfk : ¬ ClientKey (fillRow revision).name := fun hk => hk.ne_fillName revision rfl
  have hfne : ∀ k, ClientKey k → (fillRow revision).name ≠ k := fun k hk e => hfk (e ▸ hk)
  have hrows := s.fill_rows hr
  have hrowsOf : ∀ k, ClientKey k → rowsOf (s.fill revision).db.rows k = rowsOf s.db.rows k := by
    intro k hk
    rw [hrows, rowsOf_append, rowsOf_singleton, if_neg (hfne k hk), List.append_nil]
  have hwm : (s.fill revision).db.watermark = s.db.watermark :=
    Db.watermark_congr (by rw [hrows, rowsOf_append, rowsOf_singleton, if_neg hfc, List.append_nil])
  have hseq : s.db.seq ≤ (s.fill revision).db.seq := by rw [hdb]; exact le_max_left _ _
  have hmem : ∀ r ∈ (s.fill revision).db.rows, r ∈ s.db.rows ∨ r = fillRow revision := by
    intro r hr; rwa [hrows, List.mem_append, List.mem_singleton] at hr
  have hold : ∀ r ∈ (s.fill revision).db.rows, ClientKey r.name → r ∈ s.db.rows := by
    intro r hr hrk
    exact (hmem r hr).resolve_right fun e => hfk (e ▸ hrk)
  have hlogOf : ∀ k, ClientKey k → rowsOf (s.fill revision).log k = rowsOf s.log k := by
    intro k hk
    rw [hlog, rowsOf_append, rowsOf_singleton, if_neg (hfne k hk), List.append_nil]
  refine ⟨?_, ?_, fun r hr hrk => h.id_gt r (hold r hr hrk) hrk, fun r hr hrk => h.prev_lt r (hold r hr hrk) hrk,
    fun r hr hrk => h.prev_gt r (hold r hr hrk) hrk, fun r hr hrk => h.created_prev r (hold r hr hrk) hrk,
    fun a ha b hb hak hbk => h.cross a (hold a ha hak) b (hold b hb hbk) hak hbk, ?_, ?_, ?_, ?_, ?_, ?_,
    h.hist_client, ?_, ?_, fun k hk => hlogOf k hk ▸ h.log_sorted k hk⟩
  · rw [hwm, hrows, rowsOf_append, rowsOf_singleton, if_neg hfc, List.append_nil]; exact h.marker_only
  · intro r hr
    rcases hmem r hr with hr | rfl
    exacts [h.names r hr, .inr (.inr rfl)]
  · intro k hk; rw [hrowsOf k hk]; exact h.links k hk
  · intro k hk; rw [hrowsOf k hk, hlogOf k hk, hwm]; exact h.present k hk
  · rw [hwm]; exact h.watermark_le.trans hseq
  · intro c hc; rw [hwm]; exact (h.pending c hc).imp_right (·.trans hseq)
  · intro R hR k hk
    rw [hwm] at hR
    rw [Sys.fill_hist, h.hist R hR k hk, hrows, atRevision_some, atRevision_some, List.filter_append,
      List.filter_singleton]
    cases decide ((fillRow revision).id ≤ R)
    · rw [cond_false, List.append_nil]
    · rw [cond_true, latest_append_of_ne (hfne k hk)]
  · intro p hp; exact (h.hist_le p hp).trans hseq
  · rw [hwm, hrows, hlog]; exact log_append h.log hfc
  · intro r hr
    rw [hlog] at hr
    rcases List.mem_append.mp hr with hr | hr
    · exact (h.log_le r hr).trans hseq
    · rw [List.mem_singleton.mp hr, hdb]; exact le_max_right _ _

/-- A Compact's read keeps the invariant: it records the watermark and an end below every id. -/
theorem compactRead (h : Inv sid s) (revision : Int) : Inv sid (s.compactRead revision) := by
  rcases s.compactRead_cases revision with he | he <;> rw [he]
  · exact h
  refine { h with pending := ?_ }
  intro c hc
  rcases List.mem_cons.mp hc with rfl | hc
  · exact ⟨le_rfl, (min_le_right _ _).trans (revSQL_getD_le s.db (by have := h.sid_le; omega))⟩
  · exact h.pending c hc

theorem compactAbandon (h : Inv sid s) (c : CompactCall) : Inv sid (s.compactAbandon c) :=
  { h with pending := fun c' hc' => h.pending c' (List.mem_of_mem_erase hc') }

/-- tryCompact raises the marker to its window's end and keeps it the only row of its name. -/
theorem marker_tryCompact (h : Inv sid s) (start end_ : Int) :
    rowsOf (Generic.tryCompact s.db start end_).rows compactRevKey = [K8sDqlite.marker sid (max s.db.watermark end_)] := by
  rw [tryCompact_rows, rowsOf_map_raiseMarker_self, rowsOf_filter, rowsOf_filter, h.marker_only]
  have hsup : (sid : Int) ∉ supersededIds s.db.rows start end_ := by
    rw [mem_supersededIds]
    rintro ⟨y, hy, hyc, -, hy0, -, -, hyx⟩
    rcases h.names y hy with hyc' | hyk | hyf
    · exact hyc hyc'
    · exact absurd hyx (ne_of_gt (h.prev_gt y hy hyk hy0))
    · exact hy0 (by rw [hyf]; rfl)
  have hkept : ([K8sDqlite.marker sid s.db.watermark].filter (fun r => r.id ∉ supersededIds s.db.rows start end_)).filter
      (fun r => !inWindowTombstone start end_ r) = [K8sDqlite.marker sid s.db.watermark] := by
    simp [hsup, inWindowTombstone, K8sDqlite.marker]
  rw [hkept, List.map_singleton, raiseMarker_marker]

theorem watermark_tryCompact (h : Inv sid s) (start end_ : Int) :
    (Generic.tryCompact s.db start end_).watermark = max s.db.watermark end_ :=
  watermark_eq (h.marker_tryCompact start end_)

/-- Every link other than the marker's points below its row. -/
theorem prev_lt_of_ne (h : Inv sid s) :
    ∀ y ∈ s.db.rows, y.name ≠ compactRevKey → y.prevRevision ≠ 0 → y.prevRevision < y.id := by
  intro y hy hyc hy0
  rcases h.names y hy with hyc' | hyk | hyf
  exacts [absurd hyc' hyc, h.prev_lt y hy hyk, absurd (by rw [hyf]; rfl) hy0]

/-- tryCompact removes no row other than the marker above its window's end. -/
theorem mem_tryCompact_iff (h : Inv sid s) {start end_ : Int} {r : Row} (he : end_ < r.id)
    (hr : r.name ≠ compactRevKey) : r ∈ (Generic.tryCompact s.db start end_).rows ↔ r ∈ s.db.rows :=
  ⟨fun hm => mem_tryCompact_of_ne hm hr, fun hm => raiseMarker_of_ne hr ▸ mem_tryCompact_of_lt hm he h.prev_lt_of_ne⟩

/-- On each client key, tryCompact with a window starting at or below the watermark leaves exactly
the rows compaction to the window's end keeps. -/
theorem rowsOf_tryCompact_eq (h : Inv sid s) {start : Int} (hstart : start ≤ s.db.watermark) (end_ : Int)
    {k : Bytes} (hk : ClientKey k) :
    rowsOf (Generic.tryCompact s.db start end_).rows k = compacted (rowsOf s.db.rows k) end_ := by
  rw [rowsOf_tryCompact _ _ _ hk.1]
  refine filter_window_eq_compacted (h.links k hk) (fun y hy => h.prev_lt y (mem_rowsOf.mp hy).1
    ((mem_rowsOf.mp hy).2 ▸ hk)) (compacted_idem (h.below hk) hstart) fun x hx => ?_
  obtain ⟨hxr, hxn⟩ := mem_rowsOf.mp hx
  rw [mem_supersededIds]
  constructor
  · rintro ⟨y, hy, hyc, hcr, hy0, hs, he, hyx⟩
    rcases h.names y hy with hyc' | hyk | hyf
    · exact absurd hyc' hyc
    · exact ⟨y, mem_rowsOf.mpr ⟨hy, (h.cross x hxr y hy (hxn ▸ hk) hyk hyx).symm.trans hxn⟩, hcr, hs, he, hyx⟩
    · exact absurd (by rw [hyf]; rfl) hy0
  · rintro ⟨y, hy, hcr, hs, he, hyx⟩
    obtain ⟨hyr, hyn⟩ := mem_rowsOf.mp hy
    have := h.id_gt x hxr (hxn ▸ hk)
    exact ⟨y, hyr, hyn ▸ hk.1, hcr, by omega, hs, he, hyx⟩

section CommitStep

variable (h : Inv sid s) {c : CompactCall} (hc : c ∈ s.pending)

include h hc

/-- A commit keeps the invariant. -/
theorem compactCommit : Inv sid (s.compactCommit c) := by
  have hwm : (s.compactCommit c).db.watermark = max s.db.watermark c.end_ := h.watermark_tryCompact _ _
  have hw := le_max_left s.db.watermark c.end_
  have hrowsOf : ∀ {k}, ClientKey k → rowsOf (s.compactCommit c).db.rows k = compacted (rowsOf s.db.rows k) c.end_ :=
    fun hk => h.rowsOf_tryCompact_eq (h.pending c hc).1 _ hk
  have hold : ∀ r ∈ (s.compactCommit c).db.rows, r.name ≠ compactRevKey → r ∈ s.db.rows :=
    fun r hr hrc => mem_tryCompact_of_ne hr hrc
  refine ⟨?marker_only, ?names, fun r hr hrk => h.id_gt r (hold r hr hrk.1) hrk,
    fun r hr hrk => h.prev_lt r (hold r hr hrk.1) hrk, fun r hr hrk => h.prev_gt r (hold r hr hrk.1) hrk,
    fun r hr hrk => h.created_prev r (hold r hr hrk.1) hrk,
    fun a ha b hb hak hbk => h.cross a (hold a ha hak.1) b (hold b hb hbk.1) hak hbk, ?links, ?present, ?wm,
    ?pending, ?hist, h.hist_le, h.hist_client, ?log, h.log_le, h.log_sorted⟩
  case marker_only => rw [hwm]; exact h.marker_tryCompact _ _
  case names =>
    intro r hr
    obtain ⟨x, hx, rfl⟩ := mem_tryCompact hr
    by_cases hxc : x.name = compactRevKey
    · exact .inl (by rw [raiseMarker_name, hxc])
    · rw [raiseMarker_of_ne hxc]; exact h.names x hx
  case links =>
    intro k hk a ha b hb hab
    rw [hrowsOf hk] at ha hb hab
    exact h.links k hk a ((compacted_sublist _ _).subset ha) b ((compacted_sublist _ _).subset hb)
      (hab.of_compacted ha)
  case present =>
    intro k hk
    rw [hwm, hrowsOf hk, h.present k hk, compacted_compacted, Sys.compactCommit_log]
  case wm => rw [hwm]; exact max_le h.watermark_le (h.pending c hc).2
  case pending =>
    intro c' hc'
    obtain ⟨h1, h2⟩ := h.pending c' (List.mem_of_mem_erase hc')
    rw [hwm]; exact ⟨h1.trans hw, h2⟩
  case hist =>
    intro R hR k hk
    rw [hwm] at hR
    rw [Sys.compactCommit_hist, h.hist R (hw.trans hR) k hk, latest, latest, atRevision_some, atRevision_some,
      rowsOf_filter, rowsOf_filter, hrowsOf hk,
      compacted_filter_le _ ((le_max_right _ _).trans hR)]
    exact (argmax_compacted_bind_toEntry (((s.db.nodup_rowsOf k)).sublist
      ((List.filter_sublist _).map _)) _).symm
  case log =>
    intro r hr
    rw [hwm] at hr
    rw [Sys.compactCommit_log, ← h.log r (lt_of_le_of_lt hw hr)]
    exact and_congr_left (h.mem_tryCompact_iff (lt_of_le_of_lt (le_max_right _ _) hr))

end CommitStep

theorem init (sid : Nat) : Inv sid (Sys.init sid) := by
  have hw : (Sys.init sid).db.watermark = 0 := watermark_eq ((rowsOf_singleton _ _).trans (if_pos rfl))
  have hmk : ∀ r ∈ (Sys.init sid).db.rows, r = K8sDqlite.marker sid 0 := fun r hr => by simpa [Sys.init, Db.init] using hr
  have hnk : ∀ k, ClientKey k → rowsOf (Sys.init sid).db.rows k = [] := by
    intro k hk
    simp [Sys.init, Db.init, rowsOf, K8sDqlite.marker, Ne.symm hk.1]
  have hnc : ∀ r ∈ (Sys.init sid).db.rows, ¬ ClientKey r.name := fun r hr hrk => hrk.1 (by rw [hmk r hr]; rfl)
  refine ⟨?_, fun r hr => .inl (by rw [hmk r hr]; rfl), fun r hr hrk => absurd hrk (hnc r hr),
    fun r hr hrk => absurd hrk (hnc r hr), fun r hr hrk => absurd hrk (hnc r hr),
    fun r hr hrk => absurd hrk (hnc r hr), fun r hr _ _ hrk => absurd hrk (hnc r hr), fun k hk => by simp [hnk k hk],
    fun k hk => by rw [hnk k hk]; rfl, by rw [hw]; exact Int.ofNat_nonneg _,
    by simp [Sys.init], fun R _ k hk => ?_, by simp [Sys.init], by simp [Sys.init], fun r _ => ?_,
    by simp [Sys.init], fun k _ => by simp [Sys.init, rowsOf, IdSorted]⟩
  · rw [hw]; simp [Sys.init, Db.init, rowsOf, K8sDqlite.marker]
  · rw [latest, atRevision_some, rowsOf_filter, hnk k hk]; rfl
  · simp only [Sys.init, List.not_mem_nil, iff_false, not_and, not_not]
    intro hr; rw [hmk r hr]; rfl

end Inv

/-- Every state of a run on client keys keeps the invariant. -/
theorem Reachable.inv {sid : Nat} {s : Sys} (hs : Reachable ClientKey sid s) : Inv sid s := by
  induction hs with
  | refl => exact Inv.init sid
  | tail _ hstep ih =>
    cases hstep with
    | write w id hid hk => exact ih.write hk hid
    | fill revision hr => exact ih.fill hr
    | compactRead revision => exact ih.compactRead revision
    | compactCommit c hc => exact ih.compactCommit hc
    | compactAbandon c hc => exact ih.compactAbandon c

end K8sDqlite
