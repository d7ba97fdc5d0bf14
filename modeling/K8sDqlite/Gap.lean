import K8sDqlite.Watermark

namespace K8sDqlite

theorem latest_atRevision_append_of_ne {rows : List Row} {r : Row} {key : Bytes} (h : r.name ≠ key)
    (revision : Option Int) : latest (atRevision (rows ++ [r]) revision) key = latest (atRevision rows revision) key := by
  rw [atRevision, List.filter_append, List.filter_singleton]
  cases (revision.all (r.id ≤ ·))
  · rw [cond_false, List.append_nil]; rfl
  · rw [cond_true, latest_append_of_ne h]; rfl

/-- A write reads only its own name's rows. -/
theorem Write.select_append_of_ne {rows : List Row} {r : Row} {id : Int} (w : Write) (h : r.name ≠ w.key) :
    w.select (rows ++ [r]) id = w.select rows id := by
  cases w <;> simp only [Write.key] at h <;>
    simp [Write.select, createSQL, updateSQL, deleteSQL, casRow, latest_append_of_ne h]

/-- No link a compaction follows starts at a row that links to 0. -/
theorem supersededIds_append_of_prev_zero {rows : List Row} {r : Row} (h : r.prevRevision = 0) (start end_ : Int) :
    supersededIds (rows ++ [r]) start end_ = supersededIds rows start end_ := by
  simp [supersededIds, h]

namespace Inv

variable {sid : Nat} {s : Sys}

/-- A Fill of an absent id changes no listing that leaves tombstones out. -/
theorem listSQL_fill (h : Inv sid s) {revision : Int} (hr : revision ∉ s.db.rows.map Row.id)
    (range : Bytes × Bytes) (rev : Option Int) :
    listSQL (s.fill revision).db.rows range rev false = listSQL s.db.rows range rev false := by
  have hrows := s.fill_rows hr
  have hgap : ∀ x ∈ (s.fill revision).db.rows, x.name = (fillRow revision).name → x.deleted = true := by
    intro x hx hxn
    rw [hrows, List.mem_append, List.mem_singleton] at hx
    rcases hx with hx | rfl
    · rw [(h.isFill_iff hx).mp (hxn ▸ isFill_fillName revision)]; rfl
    · rfl
  refine eq_of_sorted_of_mem_iff (listSQL_sorted _ _ _ _) (listSQL_sorted _ _ _ _) fun kv => ?_
  rw [mem_listSQL, mem_listSQL]
  by_cases hn : (fillRow revision).name = kv.name
  · constructor
    · rintro ⟨-, hl, hd⟩
      rw [hgap kv (mem_of_mem_atRevision (latest_mem hl).1) hn.symm] at hd
      simp at hd
    · rintro ⟨-, hl, hd⟩
      have hkv : kv ∈ (s.fill revision).db.rows := by
        rw [hrows]; exact List.mem_append_left _ (mem_of_mem_atRevision (latest_mem hl).1)
      rw [hgap kv hkv hn.symm] at hd
      simp at hd
  · rw [hrows, latest_atRevision_append_of_ne hn]

end Inv

end K8sDqlite
