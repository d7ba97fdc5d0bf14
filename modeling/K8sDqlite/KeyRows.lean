import K8sDqlite.Compact

namespace K8sDqlite

/-- With distinct ids, a name's row at MAX(id) is its row of greatest id. -/
theorem argmax_id_eq_some_iff {l : List Row} (hl : (l.map Row.id).Nodup) {x : Row} :
    l.argmax Row.id = some x ↔ x ∈ l ∧ ∀ y ∈ l, y.id ≤ x.id := by
  rw [List.argmax_eq_some_iff]
  refine ⟨fun h => ⟨h.1, h.2.1⟩, fun h => ⟨h.1, h.2, fun a ha hxa => ?_⟩⟩
  rw [List.inj_on_of_nodup_map hl ha h.1 (le_antisymm (h.2 a ha) hxa)]

/-- A row at or below `w` with every later row above `w` is the latest row at or below `w`. -/
theorem argmax_filter_le {l : List Row} (hl : (l.map Row.id).Nodup) {w : Int} {x : Row} (hx : x ∈ l)
    (hxw : x.id ≤ w) (hlast : ∀ y ∈ l, x.id < y.id → w < y.id) : (l.filter (·.id ≤ w)).argmax Row.id = some x := by
  rw [argmax_id_eq_some_iff (hl.sublist ((List.filter_sublist _).map _))]
  refine ⟨List.mem_filter.mpr ⟨hx, decide_eq_true hxw⟩, fun y hy => not_lt.mp fun hxy => ?_⟩
  obtain ⟨hyl, hyw⟩ := List.mem_filter.mp hy
  exact absurd (hlast y hyl hxy) (not_lt.mpr (of_decide_eq_true hyw))

/-- `y` comes right after `x` among the rows of `l`. -/
def Adjacent (l : List Row) (x y : Row) : Prop :=
  y ∈ l ∧ x.id < y.id ∧ ∀ z ∈ l, x.id < z.id → y.id ≤ z.id

/-- Some row of `l` comes right after `x` when any comes after it. -/
theorem exists_adjacent {l : List Row} {x y : Row} (hy : y ∈ l) (hxy : x.id < y.id) :
    ∃ y', Adjacent l x y' ∧ y'.id ≤ y.id := by
  obtain ⟨y', hy'⟩ := Option.ne_none_iff_exists'.mp
    (mt List.argmin_eq_none.mp (List.ne_nil_of_mem (List.mem_filter.mpr ⟨hy, decide_eq_true hxy⟩)) :
      (l.filter (x.id < ·.id)).argmin Row.id ≠ none)
  have hmem := List.mem_filter.mp (List.argmin_mem hy')
  refine ⟨y', ⟨hmem.1, of_decide_eq_true hmem.2, fun z hz hxz => ?_⟩, ?_⟩
  · exact List.le_of_mem_argmin (List.mem_filter.mpr ⟨hz, decide_eq_true hxz⟩) hy'
  · exact List.le_of_mem_argmin (List.mem_filter.mpr ⟨hy, decide_eq_true hxy⟩) hy'

/-- Whether compacting the rows `l` of a name to `w` keeps `x`: it is above `w`, or it is the latest
row at or below `w` and live. -/
def keeps (l : List Row) (w : Int) (x : Row) : Bool :=
  w < x.id || !x.deleted && l.all (fun y => y.id ≤ x.id || w < y.id)

/-- What compacting to `w` leaves of one name's rows. -/
def compacted (l : List Row) (w : Int) : List Row := l.filter (keeps l w)

theorem keeps_iff {l : List Row} {w : Int} {x : Row} :
    keeps l w x = true ↔ (∀ y ∈ l, x.id < y.id → w < y.id) ∧ (x.id ≤ w → x.deleted = false) := by
  simp only [keeps, Bool.or_eq_true, decide_eq_true_eq, Bool.and_eq_true, Bool.not_eq_true',
    List.all_eq_true]
  constructor
  · rintro (h | ⟨hd, hall⟩)
    · exact ⟨fun y _ hxy => h.trans hxy, fun h' => absurd h' (not_le.mpr h)⟩
    · exact ⟨fun y hy hxy => (hall y hy).resolve_left (not_le.mpr hxy), fun _ => hd⟩
  · rintro ⟨hlast, hlive⟩
    refine (lt_or_le w x.id).imp_right fun hxw => ⟨hlive hxw, fun y hy => ?_⟩
    exact (le_or_lt y.id x.id).imp_right (hlast y hy)

theorem mem_compacted {l : List Row} {w : Int} {x : Row} :
    x ∈ compacted l w ↔ x ∈ l ∧ (∀ y ∈ l, x.id < y.id → w < y.id) ∧ (x.id ≤ w → x.deleted = false) := by
  rw [compacted, List.mem_filter, keeps_iff]

theorem compacted_sublist (l : List Row) (w : Int) : List.Sublist (compacted l w) l := List.filter_sublist l

theorem mem_compacted_of_lt {l : List Row} {w : Int} {x : Row} (hx : x ∈ l) (hw : w < x.id) :
    x ∈ compacted l w :=
  mem_compacted.mpr ⟨hx, fun _ _ hxy => hw.trans hxy, fun h => absurd h (not_le.mpr hw)⟩

theorem keeps_compacted (l : List Row) (w v : Int) (x : Row) :
    (keeps (compacted l w) v x && keeps l w x) = keeps l (max w v) x := by
  rw [Bool.eq_iff_iff, Bool.and_eq_true, keeps_iff, keeps_iff, keeps_iff]
  constructor
  · rintro ⟨⟨hv, hvl⟩, hw, hwl⟩
    exact ⟨fun y hy hxy => max_lt (hw y hy hxy) (hv y (mem_compacted_of_lt hy (hw y hy hxy)) hxy),
      fun h => (le_max_iff.mp h).elim hwl hvl⟩
  · rintro ⟨hall, hl⟩
    exact ⟨⟨fun y hy hxy => (max_lt_iff.mp (hall y ((compacted_sublist l w).subset hy) hxy)).2,
      fun h => hl (le_max_of_le_right h)⟩,
      fun y hy hxy => (max_lt_iff.mp (hall y hy hxy)).1, fun h => hl (le_max_of_le_left h)⟩

/-- Compacting twice is compacting once, to the larger revision. -/
theorem compacted_compacted (l : List Row) (w v : Int) :
    compacted (compacted l w) v = compacted l (max w v) := by
  show (l.filter (keeps l w)).filter (keeps (compacted l w) v) = l.filter (keeps l (max w v))
  rw [List.filter_filter]
  exact List.filter_congr fun x _ => keeps_compacted l w v x

theorem compacted_idem {l : List Row} {w v : Int} (h : compacted l w = l) (hv : v ≤ w) :
    compacted l v = l := by
  rw [← h, compacted_compacted, max_eq_left hv]

/-- Past the last row, a higher revision compacts no further. -/
theorem compacted_of_le {l : List Row} {w v : Int} (hl : ∀ x ∈ l, x.id ≤ w) (hv : w ≤ v) :
    compacted l v = compacted l w := by
  refine List.filter_congr fun x hx => Bool.eq_iff_iff.mpr ?_
  rw [keeps_iff, keeps_iff]
  constructor
  · rintro ⟨hall, hd⟩
    exact ⟨fun y hy hxy => absurd (hall y hy hxy) (not_lt.mpr ((hl y hy).trans hv)), fun _ => hd ((hl x hx).trans hv)⟩
  · rintro ⟨hall, hd⟩
    exact ⟨fun y hy hxy => absurd (hall y hy hxy) (not_lt.mpr (hl y hy)), fun _ => hd (hl x hx)⟩

/-- Compacting to a revision clamped to a bound at or above every row does not depend on the bound. -/
theorem compacted_min_congr {l : List Row} {r c c' : Int} (hl : ∀ x ∈ l, x.id ≤ c) (hc : c ≤ c') :
    compacted l (min r c') = compacted l (min r c) := by
  rcases le_total r c with h | h
  · rw [min_eq_left h, min_eq_left (h.trans hc)]
  · rw [min_eq_right h]
    exact compacted_of_le hl (le_min h hc)

/-- A row above `w` and above every earlier row is kept, and keeps every earlier decision. -/
theorem compacted_append (l : List Row) (w : Int) {y : Row} (hy : w < y.id) :
    compacted (l ++ [y]) w = compacted l w ++ [y] := by
  rw [compacted, List.filter_append, List.filter_singleton, compacted]
  have hky : keeps (l ++ [y]) w y = true := by simp [keeps, hy]
  rw [hky, cond_true]
  congr 1
  refine List.filter_congr fun x hx => Bool.eq_iff_iff.mpr ?_
  simp only [keeps_iff, List.mem_append, List.mem_singleton]
  exact ⟨fun ⟨h, hd⟩ => ⟨fun z hz => h z (.inl hz), hd⟩,
    fun ⟨h, hd⟩ => ⟨fun z hz hxz => hz.elim (fun hz => h z hz hxz) (fun e => e ▸ hy), hd⟩⟩

/-- Of rows in increasing id order, compaction keeps a suffix. -/
theorem compacted_suffix {l : List Row} (hl : IdSorted l) (w : Int) : List.IsSuffix (compacted l w) l := by
  induction l with
  | nil => exact List.suffix_refl _
  | cons a l ih =>
    have hlt : ∀ y ∈ l, a.id < y.id := List.rel_of_sorted_cons hl
    by_cases ha : keeps (a :: l) w a
    · have hall : compacted (a :: l) w = a :: l := by
        refine List.filter_eq_self.mpr fun x hx => ?_
        rcases List.mem_cons.mp hx with rfl | hx
        · exact ha
        · simp [keeps, (keeps_iff.mp ha).1 x (List.mem_cons_of_mem a hx) (hlt x hx)]
      simpa only [hall] using List.suffix_refl (a :: l)
    · have htail : compacted (a :: l) w = compacted l w := by
        rw [compacted, List.filter_cons_of_neg ha, compacted]
        refine List.filter_congr fun x hx => Bool.eq_iff_iff.mpr ?_
        simp only [keeps_iff, List.mem_cons, forall_eq_or_imp]
        exact and_congr_left' ⟨fun h => h.2, fun h => ⟨fun hxa => absurd (hlt x hx) (not_lt.mpr hxa.le), h⟩⟩
      rw [htail]
      exact (ih (List.Sorted.of_cons hl)).trans (List.suffix_cons a l)

/-- At revisions from `w` on, compacting to `w` commutes with reading at the revision. -/
theorem compacted_filter_le (l : List Row) {w R : Int} (hR : w ≤ R) :
    (compacted l w).filter (·.id ≤ R) = compacted (l.filter (·.id ≤ R)) w := by
  rw [compacted, compacted, List.filter_filter, List.filter_filter]
  refine List.filter_congr fun x _ => Bool.eq_iff_iff.mpr ?_
  simp only [Bool.and_eq_true, keeps_iff, decide_eq_true_eq, List.mem_filter]
  constructor
  · rintro ⟨hxR, hall, hl⟩
    exact ⟨⟨fun y hy hxy => hall y hy.1 hxy, hl⟩, hxR⟩
  · rintro ⟨⟨hall, hl⟩, hxR⟩
    refine ⟨hxR, fun y hy hxy => ?_, hl⟩
    by_cases hyR : y.id ≤ R
    · exact hall y ⟨hy, hyR⟩ hxy
    · exact lt_of_le_of_lt hR (not_le.mp hyR)

/-- The latest row left is the latest row, unless that one is a tombstone compacted away. -/
theorem argmax_compacted {l : List Row} (hl : (l.map Row.id).Nodup) (w : Int) :
    (compacted l w).argmax Row.id = (l.argmax Row.id).filter (keeps l w) := by
  have hc : ((compacted l w).map Row.id).Nodup := hl.sublist ((compacted_sublist l w).map _)
  rcases hm : l.argmax Row.id with _ | x
  · rw [List.argmax_eq_none] at hm; subst hm; rfl
  obtain ⟨hx, hmax⟩ := (argmax_id_eq_some_iff hl).mp hm
  by_cases hk : keeps l w x
  · rw [Option.filter_some, if_pos hk, argmax_id_eq_some_iff hc]
    exact ⟨List.mem_filter.mpr ⟨hx, hk⟩, fun y hy => hmax y ((compacted_sublist l w).subset hy)⟩
  · rw [Option.filter_some, if_neg hk, List.argmax_eq_none, List.eq_nil_iff_forall_not_mem]
    intro y hy
    obtain ⟨hyl, hylast, hylive⟩ := mem_compacted.mp hy
    have hxk : ¬ (w < x.id) := fun h => hk (by simp [keeps, h])
    rcases (hmax y hyl).lt_or_eq with hlt | heq
    · exact hxk (hylast x hx hlt)
    · rw [List.inj_on_of_nodup_map hl hyl hx heq] at hylive hylast
      exact hk (keeps_iff.mpr ⟨hylast, hylive⟩)

/-- A live latest row is left, and is still the latest. -/
theorem argmax_compacted_of_live {l : List Row} (hl : (l.map Row.id).Nodup) (w : Int) {x : Row}
    (hx : x.deleted = false) : (compacted l w).argmax Row.id = some x ↔ l.argmax Row.id = some x := by
  rw [argmax_compacted hl, Option.filter_eq_some, Option.mem_def, and_iff_left_iff_imp]
  exact fun hm => keeps_iff.mpr ⟨fun y hy hxy => absurd (List.le_of_mem_argmax hy hm) (not_le.mpr hxy), fun _ => hx⟩

/-- What compaction leaves says of the name what the rows said. -/
theorem argmax_compacted_bind_toEntry {l : List Row} (hl : (l.map Row.id).Nodup) (w : Int) :
    ((compacted l w).argmax Row.id).bind toEntry = (l.argmax Row.id).bind toEntry := by
  rw [argmax_compacted hl]
  rcases hm : l.argmax Row.id with _ | x
  · rfl
  by_cases hk : keeps l w x
  · rw [Option.filter_some, if_pos hk]
  · have hd : x.deleted = true := by
      by_contra hd
      exact hk (keeps_iff.mpr ⟨fun y hy hxy => absurd (List.le_of_mem_argmax hy hm) (not_le.mpr hxy),
        fun _ => Bool.eq_false_iff.mpr hd⟩)
    rw [Option.filter_some, if_neg hk]
    simp [toEntry, hd]

/-- Appending a row above every row of `l` that follows `l`'s latest row keeps every adjacent pair
linked. -/
theorem links_append {l : List Row} {y : Row} (hl : (l.map Row.id).Nodup) (hlt : ∀ c ∈ l, c.id < y.id)
    (hlinks : ∀ x ∈ l, ∀ z ∈ l, Adjacent l x z → Follows x z) (hy : ∀ x, l.argmax Row.id = some x → Follows x y) :
    ∀ x ∈ l ++ [y], ∀ z ∈ l ++ [y], Adjacent (l ++ [y]) x z → Follows x z := by
  have hold : ∀ {c}, c ∈ l ++ [y] → c.id < y.id → c ∈ l := fun hc hcy =>
    (List.mem_append.mp hc).resolve_right fun hc => by rw [List.mem_singleton.mp hc] at hcy; exact lt_irrefl _ hcy
  intro a ha b hb hab
  rcases List.mem_append.mp hb with hb | hb
  · exact hlinks a (hold ha (hab.2.1.trans (hlt b hb))) b hb
      ⟨hb, hab.2.1, fun z hz => hab.2.2 z (List.mem_append_left _ hz)⟩
  · rw [List.mem_singleton.mp hb] at hab ⊢
    refine hy a ((argmax_id_eq_some_iff hl).mpr ⟨hold ha hab.2.1, fun z hz => not_lt.mp fun haz => ?_⟩)
    exact absurd (hab.2.2 z (List.mem_append_left _ hz) haz) (not_le.mpr (hlt z hz))

/-- In the rows left, adjacent rows were adjacent before. -/
theorem Adjacent.of_compacted {l : List Row} {w : Int} {x y : Row} (hx : x ∈ compacted l w)
    (h : Adjacent (compacted l w) x y) : Adjacent l x y := by
  obtain ⟨-, hxlast, -⟩ := mem_compacted.mp hx
  refine ⟨(compacted_sublist l w).subset h.1, h.2.1, fun z hz hxz => h.2.2 z ?_ hxz⟩
  exact mem_compacted_of_lt hz (hxlast z hz hxz)

/-- tryCompact's two DELETEs on the rows `lk` of one name: when `lk` is already compacted to `start`,
its rows are linked, and the superseded ids that fall on `lk` are those linked from rows of `lk` in
the window, they leave exactly `compacted lk end_`, however stale `start` is. -/
theorem filter_window_eq_compacted {lk : List Row} {start end_ : Int} {superseded : List Int}
    (hlinks : ∀ x ∈ lk, ∀ y ∈ lk, Adjacent lk x y → Follows x y)
    (hprev : ∀ y ∈ lk, y.prevRevision < y.id)
    (hstart : compacted lk start = lk)
    (hsup : ∀ x ∈ lk, x.id ∈ superseded ↔
      ∃ y ∈ lk, y.created = false ∧ start < y.id ∧ y.id ≤ end_ ∧ y.prevRevision = x.id) :
    (lk.filter (fun r => r.id ∉ superseded)).filter (fun r => !inWindowTombstone start end_ r) =
      compacted lk end_ := by
  rw [List.filter_filter, compacted]
  refine List.filter_congr fun x hx => Bool.eq_iff_iff.mpr ?_
  obtain ⟨-, hslast, hslive⟩ := mem_compacted.mp (hstart.symm ▸ hx : x ∈ compacted lk start)
  simp only [Bool.and_eq_true, Bool.not_eq_true', inWindowTombstone, decide_eq_false_iff_not,
    decide_eq_true_eq, hsup x hx, keeps_iff]
  constructor
  · rintro ⟨htomb, hnsup⟩
    have hlive : x.id ≤ end_ → x.deleted = false := fun he => by
      by_contra hd
      exact htomb ⟨by simpa using hd, not_le.mp fun hs => hd (hslive hs), he⟩
    refine ⟨fun y hy hxy => ?_, hlive⟩
    by_contra hye
    obtain ⟨z, hz, hzy⟩ := exists_adjacent hy hxy
    have hf := hlinks x hx z hz.1 hz
    cases hc : z.created
    · exact hnsup ⟨z, hz.1, hc, hslast z hz.1 hz.2.1, hzy.trans (not_lt.mp hye), hf.1⟩
    · have := hlive (hz.2.1.le.trans (hzy.trans (not_lt.mp hye)))
      simp [hf.2.1.mp hc] at this
  · rintro ⟨hall, hlive⟩
    refine ⟨fun ⟨hd, _, he⟩ => by simp [hlive he] at hd, ?_⟩
    rintro ⟨y, hy, -, -, hye, hyp⟩
    exact absurd (hall y hy (hyp ▸ hprev y hy)) (not_lt.mpr hye)

end K8sDqlite
