import K8sDqlite.Snapshot

namespace K8sDqlite

theorem toEntry_modRevision {r : Row} {e : Entry} (h : toEntry r = some e) : e.modRevision = r.id := by
  unfold toEntry at h
  split_ifs at h
  cases h; rfl

namespace Step

variable {keys : Bytes → Prop} {s s' : Sys}

/-- A step appends to the ghost log only rows above the id counter and gap rows. -/
theorem log_extends (h : Step keys s s') :
    ∃ l, s'.log = s.log ++ l ∧ ∀ r ∈ l, s.db.seq < r.id ∨ r = fillRow r.id := by
  cases h with
  | write w id hid _ => exact ⟨_, rfl, fun r hr => .inl ((w.select_id r (Option.mem_toList.mp hr)).symm ▸ hid)⟩
  | fill revision _ =>
    refine ⟨_, rfl, fun r hr => .inr ?_⟩
    split_ifs at hr
    · rw [List.mem_singleton.mp hr]; rfl
    · cases hr
  | compactRead revision =>
    rcases s.compactRead_cases revision with he | he <;> exact ⟨[], by rw [he, List.append_nil], by simp⟩
  | compactCommit => exact ⟨[], (List.append_nil _).symm, by simp⟩
  | compactAbandon => exact ⟨[], (List.append_nil _).symm, by simp⟩

/-- A step gives a key's entry a mod revision above the id counter, or leaves it. -/
theorem current_modRevision (h : Step keys s s') (key : Bytes) {e : Entry} (he : s'.hist.current key = some e) :
    s.hist.current key = some e ∨ s.db.seq < e.modRevision := by
  cases h with
  | write w id hid _ => exact (History.current_write_modRevision _ _ _ key he).imp_right fun (h : e.modRevision = id) => h ▸ hid
  | fill => exact .inl he
  | compactRead revision => rcases s.compactRead_cases revision with h' | h' <;> rw [h'] at he <;> exact .inl he
  | compactCommit => exact .inl he
  | compactAbandon => exact .inl he

end Step

/-- Along a run the id counter never goes back, the ghost log only grows, by rows above the first
state's counter and gap rows, and each key's entry is the one it had or has a mod revision above
that counter. -/
theorem run_extends {keys : Bytes → Prop} {s s' : Sys} (h : Relation.ReflTransGen (Step keys) s s') :
    s.db.seq ≤ s'.db.seq ∧ (∃ l, s'.log = s.log ++ l ∧ ∀ r ∈ l, s.db.seq < r.id ∨ r = fillRow r.id) ∧
      ∀ key e, s'.hist.current key = some e → s.hist.current key = some e ∨ s.db.seq < e.modRevision := by
  induction h with
  | refl => exact ⟨le_rfl, ⟨[], (List.append_nil _).symm, by simp⟩, fun _ _ he => .inl he⟩
  | tail _ hstep ih =>
    obtain ⟨hseq, ⟨l, hl, hlr⟩, hcur⟩ := ih
    obtain ⟨l', hl', hlr'⟩ := hstep.log_extends
    refine ⟨hseq.trans hstep.seq_le, ⟨l ++ l', by rw [hl', hl, List.append_assoc], fun r hr => ?_⟩,
      fun key e he => ?_⟩
    · rcases List.mem_append.mp hr with hr | hr
      exacts [hlr r hr, (hlr' r hr).imp_left (lt_of_le_of_lt hseq)]
    · rcases hstep.current_modRevision key he with he' | he'
      exacts [hcur key e he', .inr (lt_of_le_of_lt hseq he')]

/-- The watch stream only grows: After later returns, in order, every row but the marker it returned
before, and any new row is the marker, a row above the earlier counter, or a gap row. -/
theorem after_stream_grows {sid : Nat} {s s' : Sys} (hs : Reachable ClientKey sid s)
    (hss : Relation.ReflTransGen (Step ClientKey) s s') {rev : Int} (hrev : s'.db.watermark ≤ rev) :
    ((Generic.after s.db rev 0).filter (·.name ≠ compactRevKey)).Sublist
      ((Generic.after s'.db rev 0).filter (·.name ≠ compactRevKey)) ∧
    ∀ r ∈ Generic.after s'.db rev 0, r ∉ Generic.after s.db rev 0 →
      r.name = compactRevKey ∨ s.db.seq < r.id ∨ r = fillRow r.id := by
  obtain ⟨hA, hsorted, -⟩ := after_above_watermark hs.inv ((hs.later hss).2.1.trans hrev) []
  obtain ⟨hA', hsorted', -⟩ := after_above_watermark (Reachable.inv (Relation.ReflTransGen.trans hs hss)) hrev []
  obtain ⟨-, ⟨l, hl, hnew⟩, -⟩ := run_extends hss
  refine ⟨List.sublist_of_subperm_of_sorted (List.subperm_of_subset (hsorted.filter _).nodup fun r hr => ?_)
    (hsorted.filter _) (hsorted'.filter _), fun r hr hr' => ?_⟩
  · rw [List.mem_filter] at hr ⊢
    obtain ⟨hid, hm | hm⟩ := (hA r).mp hr.1
    · exact absurd (hm ▸ rfl) (of_decide_eq_true hr.2)
    · exact ⟨(hA' r).mpr ⟨hid, .inr (hl ▸ List.mem_append_left _ hm)⟩, hr.2⟩
  · obtain ⟨hid, hm | hm⟩ := (hA' r).mp hr
    · exact .inl (hm ▸ rfl)
    · rcases List.mem_append.mp (hl ▸ hm) with hm | hm
      exacts [absurd ((hA r).mpr ⟨hid, .inr hm⟩) hr', .inr (hnew r hm)]

theorem after_stream_grows_compacted :
    let s := sampleWrites
    let s' := sampleCompacted
    Reachable ClientKey 1 s ∧ Relation.ReflTransGen (Step ClientKey) s s' ∧ s'.db.watermark ≤ 4 ∧
      (((Generic.after s.db 4 0).filter (·.name ≠ compactRevKey)).Sublist
          ((Generic.after s'.db 4 0).filter (·.name ≠ compactRevKey)) ∧
        ∀ r ∈ Generic.after s'.db 4 0, r ∉ Generic.after s.db 4 0 →
          r.name = compactRevKey ∨ s.db.seq < r.id ∨ r = fillRow r.id) := by
  intro s s'
  exact ⟨sampleWrites_reachable, sampleWrites_run_compacted, by decide,
    after_stream_grows sampleWrites_reachable sampleWrites_run_compacted (by decide)⟩

example : (Generic.after sampleWrites.db 4 0).map Row.id = [5] ∧
    (Generic.after sampleCompacted.db 4 0).map Row.id = [5, 7, 8] := by decide

/-- Stale writes are refused: once a write of a key succeeds at id `id`, no Update or Delete of the key
conditioned on a revision below `id` succeeds in any later state of the run. -/
theorem stale_writes_refused {sid : Nat} {s s' : Sys} (hs : Reachable ClientKey sid s) {w : Write}
    (hk : ClientKey w.key) {id : Int} (hid : s.db.seq < id) (hok : (Generic.write s.db w id hid).2.2 = true)
    (hss : Relation.ReflTransGen (Step ClientKey) (s.write w id hid) s') {w' : Write} (hkey : w'.key = w.key)
    {p : Int} (hp : w'.condition = some p) (hlt : p < id) (id' : Int) (hid' : s'.db.seq < id') :
    (Generic.write s'.db w' id' hid').2.2 = false := by
  obtain ⟨y, hy⟩ : ∃ y, w.select s.db.rows id = some y := by
    rcases hy : w.select s.db.rows id with _ | y
    · rw [Generic.write_of_select_none hid hy] at hok; cases hok
    · exact ⟨y, rfl⟩
  obtain ⟨-, hseq, hhist, -⟩ := hs.inv.write_of_some hk hid hy
  have hwritten : ∀ e, (s.write w id hid).hist.current w.key = some e → e.modRevision = id := by
    intro e he
    rw [hhist, History.current_append, Function.update_same] at he
    rw [toEntry_modRevision he, w.select_id y hy]
  have hstale : ∀ e, s'.hist.current w'.key = some e → p < e.modRevision := by
    intro e he
    rcases (run_extends hss).2.2 _ e (hkey ▸ he) with he | he
    exacts [hwritten e he ▸ hlt, hlt.trans (hseq ▸ he)]
  have h' := Reachable.inv (Relation.ReflTransGen.trans (hs.write w id hid hk) hss)
  have hfail : s'.hist.current.write id' w' = none := Store.write_eq_none_of_lt hp hstale
  rw [Write.select_store s'.db.rows id' w' _ (h'.hist_current (hkey ▸ hk)), Option.map_eq_none'] at hfail
  rw [Generic.write_of_select_none hid' hfail]

theorem stale_writes_refused_retry :
    let s := (Sys.init 1).write (.create (ascii "/a") (some (ascii "v")) 0) 2 (by decide)
    let w := Write.update (ascii "/a") (some (ascii "w")) 2 0
    ∃ hid : s.db.seq < 3, Reachable ClientKey 1 s ∧ ClientKey w.key ∧ (Generic.write s.db w 3 hid).2.2 = true ∧
      w.condition = some 2 ∧ (2 : Int) < 3 ∧
      ∃ hid' : (s.write w 3 hid).db.seq < 4, (Generic.write (s.write w 3 hid).db w 4 hid').2.2 = false := by
  intro s w
  have hs : Reachable ClientKey 1 s := Reachable.write .refl _ _ _ (by decide)
  let hid : s.db.seq < 3 := by decide
  let hid' : (s.write w 3 hid).db.seq < 4 := by decide
  have hok : (Generic.write s.db w 3 hid).2.2 = true := rfl
  have hlt : (2 : Int) < 3 := by decide
  exact ⟨hid, hs, by decide, hok, rfl, hlt, hid', stale_writes_refused hs (by decide) hid hok .refl rfl rfl hlt 4 hid'⟩

end K8sDqlite
