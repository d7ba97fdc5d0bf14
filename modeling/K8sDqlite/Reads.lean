import K8sDqlite.Refinement

namespace K8sDqlite

/-- What a row says about its name when it is the marker. -/
theorem toEntry_marker (sid : Nat) (p : Int) : toEntry (marker sid p) = some ⟨none, 0, sid, 0⟩ := rfl

/-- Where the marker is its name's only row, the latest row of that name at `R` is the marker once
`R` reaches its id. -/
theorem latest_of_rowsOf_marker {rows : List Row} {sid : Nat} {p : Int} (h : rowsOf rows compactRevKey = [marker sid p])
    (R : Int) : latest (atRevision rows (some R)) compactRevKey = if (sid : Int) ≤ R then some (marker sid p) else none := by
  have hmid : (marker sid p).id = sid := rfl
  rw [latest, atRevision_some, rowsOf_filter, h, List.filter_singleton, hmid]
  by_cases hsid : (sid : Int) ≤ R
  · rw [if_pos hsid, decide_eq_true hsid, cond_true]; rfl
  · rw [if_neg hsid, decide_eq_false hsid, cond_false]; rfl

namespace Inv

variable {sid : Nat} {s : Sys}

/-- Above the watermark, the table's rows are the marker and the rows the run inserted. -/
theorem mem_rows_iff (h : Inv sid s) {r : Row} (hr : s.db.watermark < r.id) :
    r ∈ s.db.rows ↔ r = marker sid s.db.watermark ∨ r ∈ s.log := by
  have hmk : ∀ {r}, r ∈ s.db.rows → r.name = compactRevKey → r = marker sid s.db.watermark := fun hr hn =>
    List.mem_singleton.mp (h.marker_only ▸ mem_rowsOf.mpr ⟨hr, hn⟩)
  constructor
  · intro hm
    by_cases hn : r.name = compactRevKey
    exacts [.inl (hmk hm hn), .inr ((h.log r hr).mp ⟨hm, hn⟩)]
  · rintro (rfl | hl)
    exacts [(mem_rowsOf.mp (h.marker_only ▸ List.mem_singleton_self _)).1, ((h.log r hr).mpr hl).1]

/-- At revisions from the watermark on, a name's latest row says what the abstract store said then,
or is the marker. -/
theorem latest_bind_toEntry_eq_some (h : Inv sid s) {R : Int} (hR : s.db.watermark ≤ R) (k : Bytes) (e : Entry) :
    (latest (atRevision s.db.rows (some R)) k).bind toEntry = some e ↔
      s.hist.at R k = some e ∨ k = compactRevKey ∧ (sid : Int) ≤ R ∧ e = ⟨none, 0, sid, 0⟩ := by
  have hnone : ¬ ClientKey k → s.hist.at R k = none := fun hk =>
    History.at_eq_none (fun p hp => h.hist_client p hp k hk) R
  by_cases hkc : k = compactRevKey
  · subst hkc
    rw [hnone fun hc => hc.1 rfl, latest_of_rowsOf_marker h.marker_only]
    by_cases hsid : (sid : Int) ≤ R
    · simp [hsid, toEntry_marker, eq_comm]
    · simp [hsid]
  · by_cases hk : ClientKey k
    · rw [h.hist R hR k hk, or_iff_left fun h => hkc h.1]
    · rw [hnone hk]
      rcases hl : latest (atRevision s.db.rows (some R)) k with _ | r
      · simp [hkc]
      obtain ⟨hr, hrk⟩ := latest_mem hl
      rcases h.names r (List.mem_of_mem_filter hr) with hrc | hrc | hrf
      · exact absurd (hrk ▸ hrc) hkc
      · exact absurd (hrk ▸ hrc) hk
      · rw [hrf]; simp [toEntry, fillRow, hkc]

end Inv

/-- A listing at a revision from the watermark on: its rows are live, one per name in name order,
and say what the abstract store said then of each name in the range, apart from the marker. -/
theorem list_above_watermark {sid : Nat} {s : Sys} (h : Inv sid s) {R : Int} (hR : s.db.watermark ≤ R)
    (pfx startKey : Bytes) :
    (∀ k e, (∃ r ∈ Generic.list s.db pfx startKey 0 R false, r.name = k ∧ toEntry r = some e) ↔
      InRange (keyRange pfx startKey) k ∧
        (s.hist.at R k = some e ∨ k = compactRevKey ∧ (sid : Int) ≤ R ∧ e = ⟨none, 0, sid, 0⟩)) ∧
    (∀ r ∈ Generic.list s.db pfx startKey 0 R false, r.deleted = false) ∧
    (Generic.list s.db pfx startKey 0 R false).Sorted nameLt := by
  rw [list_eq, withLimit_of_nonpos le_rfl]
  refine ⟨fun k e => ?_, fun r hr => ?_, listSQL_sorted _ _ _ _⟩
  · simp only [mem_listSQL, Bool.false_eq_true, or_false]
    rw [← h.latest_bind_toEntry_eq_some hR k e]
    constructor
    · rintro ⟨r, ⟨hin, hl, -⟩, rfl, he⟩
      exact ⟨hin, by rw [hl]; exact he⟩
    · rintro ⟨hin, hsome⟩
      obtain ⟨r, hl, he⟩ := Option.bind_eq_some.mp hsome
      have hd : r.deleted = false := Bool.eq_false_iff.mpr fun hd => by simp [toEntry, hd] at he
      exact ⟨r, ⟨(latest_mem hl).2 ▸ hin, (latest_mem hl).2 ▸ hl, hd⟩, (latest_mem hl).2, he⟩
  · simpa using ((mem_listSQL s.db).mp hr).2.2

/-- After and AfterPrefix from a revision at or above the watermark: the rows of the run above it,
with the marker, in increasing id order. -/
theorem after_above_watermark {sid : Nat} {s : Sys} (h : Inv sid s) {rev : Int} (hrev : s.db.watermark ≤ rev)
    (pfx : Bytes) :
    (∀ r, r ∈ Generic.after s.db rev 0 ↔ rev < r.id ∧ (r = marker sid s.db.watermark ∨ r ∈ s.log)) ∧
    (Generic.after s.db rev 0).Sorted idLt ∧
    (∀ r, r ∈ Generic.afterPrefix s.db pfx rev 0 ↔
      InRange (getPrefixRange pfx) r.name ∧ rev < r.id ∧ (r = marker sid s.db.watermark ∨ r ∈ s.log)) ∧
    (Generic.afterPrefix s.db pfx rev 0).Sorted idLt := by
  have hnd : ∀ p : Row → Bool, ((s.db.rows.filter p).map Row.id).Nodup :=
    fun p => s.db.nodup.sublist ((List.filter_sublist _).map _)
  simp only [Generic.after, Generic.afterPrefix, withLimit_of_nonpos le_rfl]
  refine ⟨fun r => ?_, sorted_insertionSort_idLe (hnd _), fun r => ?_, sorted_insertionSort_idLe (hnd _)⟩
  · rw [List.mem_insertionSort, List.mem_filter, decide_eq_true_iff]
    exact ⟨fun ⟨hm, hr⟩ => ⟨hr, (h.mem_rows_iff (lt_of_le_of_lt hrev hr)).mp hm⟩,
      fun ⟨hr, hm⟩ => ⟨(h.mem_rows_iff (lt_of_le_of_lt hrev hr)).mpr hm, hr⟩⟩
  · rw [List.mem_insertionSort, List.mem_filter, decide_eq_true_iff]
    exact ⟨fun ⟨hm, hin, hr⟩ => ⟨hin, hr, (h.mem_rows_iff (lt_of_le_of_lt hrev hr)).mp hm⟩,
      fun ⟨hin, hr, hm⟩ => ⟨(h.mem_rows_iff (lt_of_le_of_lt hrev hr)).mpr hm, hin, hr⟩⟩

/-- Reads at or above the watermark see the full history: List and Count return the abstract store at
the revision, and After and AfterPrefix the rows the run inserted past it, each with the marker. -/
theorem reads_above_watermark {sid : Nat} {s : Sys} (hs : Reachable ClientKey sid s) (R rev : Int)
    (hR : s.db.watermark ≤ R) (hrev : s.db.watermark ≤ rev) (pfx startKey : Bytes) :
    ((∀ k e, (∃ r ∈ Generic.list s.db pfx startKey 0 R false, r.name = k ∧ toEntry r = some e) ↔
        InRange (keyRange pfx startKey) k ∧
          (s.hist.at R k = some e ∨ k = compactRevKey ∧ (sid : Int) ≤ R ∧ e = ⟨none, 0, sid, 0⟩)) ∧
      (∀ r ∈ Generic.list s.db pfx startKey 0 R false, r.deleted = false) ∧
      (Generic.list s.db pfx startKey 0 R false).Sorted nameLt ∧
      (Generic.count s.db pfx startKey R).2 = (Generic.list s.db pfx startKey 0 R false).length) ∧
    ((∀ r, r ∈ Generic.after s.db rev 0 ↔ rev < r.id ∧ (r = marker sid s.db.watermark ∨ r ∈ s.log)) ∧
      (Generic.after s.db rev 0).Sorted idLt ∧
      (∀ r, r ∈ Generic.afterPrefix s.db pfx rev 0 ↔
        InRange (getPrefixRange pfx) r.name ∧ rev < r.id ∧ (r = marker sid s.db.watermark ∨ r ∈ s.log)) ∧
      (Generic.afterPrefix s.db pfx rev 0).Sorted idLt) := by
  have h := hs.inv
  obtain ⟨h1, h2, h3⟩ := list_above_watermark h hR pfx startKey
  exact ⟨⟨h1, h2, h3, count_eq_length _ _ _ _⟩, after_above_watermark h hrev pfx⟩

theorem reads_above_watermark_compacted :
    let s := sampleCompacted
    Reachable ClientKey 1 s ∧ s.db.watermark ≤ 5 ∧ s.db.watermark ≤ 4 ∧
    (((∀ k e, (∃ r ∈ Generic.list s.db (ascii "/") [] 0 5 false, r.name = k ∧ toEntry r = some e) ↔
        InRange (keyRange (ascii "/") []) k ∧
          (s.hist.at 5 k = some e ∨ k = compactRevKey ∧ ((1 : Nat) : Int) ≤ 5 ∧ e = ⟨none, 0, 1, 0⟩)) ∧
      (∀ r ∈ Generic.list s.db (ascii "/") [] 0 5 false, r.deleted = false) ∧
      (Generic.list s.db (ascii "/") [] 0 5 false).Sorted nameLt ∧
      (Generic.count s.db (ascii "/") [] 5).2 = (Generic.list s.db (ascii "/") [] 0 5 false).length) ∧
    ((∀ r, r ∈ Generic.after s.db 4 0 ↔ 4 < r.id ∧ (r = marker 1 s.db.watermark ∨ r ∈ s.log)) ∧
      (Generic.after s.db 4 0).Sorted idLt ∧
      (∀ r, r ∈ Generic.afterPrefix s.db (ascii "/") 4 0 ↔
        InRange (getPrefixRange (ascii "/")) r.name ∧ 4 < r.id ∧ (r = marker 1 s.db.watermark ∨ r ∈ s.log)) ∧
      (Generic.afterPrefix s.db (ascii "/") 4 0).Sorted idLt)) := by
  intro s
  exact ⟨sampleCompacted_reachable, by decide, by decide,
    reads_above_watermark sampleCompacted_reachable 5 4 (by decide) (by decide) (ascii "/") []⟩

/-- The marker is a row like any other to the reads: a listing of its name and After from the
watermark both return it, though the abstract store is empty and the run has inserted no row. -/
theorem reads_see_marker :
    Reachable ClientKey 1 (Sys.init 1) ∧ (Sys.init 1).db.watermark = 0 ∧ (∀ R k, (Sys.init 1).hist.at R k = none) ∧
      (Sys.init 1).log = [] ∧ Generic.list (Sys.init 1).db compactRevKey [] 0 1 false = [marker 1 0] ∧
      Generic.after (Sys.init 1).db 0 0 = [marker 1 0] :=
  ⟨.refl, by decide, fun _ _ => rfl, rfl, by decide, by decide⟩

end K8sDqlite
