import K8sDqlite.Compaction

namespace K8sDqlite

/-- A write never moves the id counter back. -/
theorem seq_le_write (db : Db) (w : Write) (id : Int) (hid : db.seq < id) : db.seq ≤ (Generic.write db w id hid).1.seq := by
  rcases hy : w.select db.rows id with _ | y
  · rw [Generic.write_of_select_none hid hy]
  · rw [(Generic.write_of_select_some hid hy).2.1]
    exact hid.le

namespace Step

variable {keys : Bytes → Prop} {s s' : Sys}

/-- No step moves the id counter back. -/
theorem seq_le (h : Step keys s s') : s.db.seq ≤ s'.db.seq := by
  cases h with
  | write w id hid _ => exact seq_le_write s.db w id hid
  | fill revision _ =>
    unfold Sys.fill Generic.fill
    split
    · exact le_rfl
    · exact le_max_left _ _
  | compactRead revision => rcases s.compactRead_cases revision with he | he <;> rw [he]
  | compactCommit c _ => exact le_rfl
  | compactAbandon c _ => exact le_rfl

/-- No step changes the store as it stood at a revision the id counter has passed. -/
theorem hist_at (h : Step keys s s') {R : Int} (hR : R ≤ s.db.seq) : s'.hist.at R = s.hist.at R := by
  cases h with
  | write w id hid _ => exact History.at_write_of_lt _ (lt_of_le_of_lt hR hid) w
  | fill => rfl
  | compactRead revision => rcases s.compactRead_cases revision with he | he <;> rw [he]
  | compactCommit => rfl
  | compactAbandon => rfl

end Step

/-- On client keys, no step lowers the watermark. -/
theorem Inv.watermark_le_step {sid : Nat} {s s' : Sys} (h : Inv sid s) (hstep : Step ClientKey s s') :
    s.db.watermark ≤ s'.db.watermark := by
  cases hstep with
  | write w id hid hk => exact (watermark_write_of_ne s.db w id hid hk.1).ge
  | fill revision _ => exact (watermark_fill s.db revision).ge
  | compactRead revision => rcases s.compactRead_cases revision with he | he <;> rw [he]
  | compactCommit c _ => exact (h.watermark_tryCompact _ _).ge.trans' (le_max_left _ _)
  | compactAbandon c _ => exact le_rfl

/-- Along a run on client keys from a reachable state, the id counter and the watermark never go
back, and the store as it stood at a revision the counter had passed never changes. -/
theorem Reachable.later {sid : Nat} {s s' : Sys} (hs : Reachable ClientKey sid s)
    (hss : Relation.ReflTransGen (Step ClientKey) s s') :
    s.db.seq ≤ s'.db.seq ∧ s.db.watermark ≤ s'.db.watermark ∧ ∀ R ≤ s.db.seq, s'.hist.at R = s.hist.at R := by
  induction hss with
  | refl => exact ⟨le_rfl, le_rfl, fun _ _ => rfl⟩
  | tail hrun hstep ih =>
    obtain ⟨hseq, hwm, hhist⟩ := ih
    exact ⟨hseq.trans hstep.seq_le,
      hwm.trans ((Reachable.inv (Relation.ReflTransGen.trans hs hrun)).watermark_le_step hstep),
      fun R hR => (hstep.hist_at (hR.trans hseq)).trans (hhist R hR)⟩

/-- Two listings of live rows, one per name in name order, that say the same of every name have the
same length. -/
theorem length_eq_of_entries {l₁ l₂ : List Row} (h₁ : l₁.Sorted nameLt) (h₂ : l₂.Sorted nameLt)
    (hd₁ : ∀ r ∈ l₁, r.deleted = false) (hd₂ : ∀ r ∈ l₂, r.deleted = false)
    (he : ∀ k e, (∃ r ∈ l₁, r.name = k ∧ toEntry r = some e) ↔ (∃ r ∈ l₂, r.name = k ∧ toEntry r = some e)) :
    l₁.length = l₂.length := by
  have hmem : ∀ {l : List Row}, (∀ r ∈ l, r.deleted = false) →
      ∀ k, k ∈ l.map Row.name ↔ ∃ e, ∃ r ∈ l, r.name = k ∧ toEntry r = some e := by
    intro l hd k
    rw [List.mem_map]
    constructor
    · rintro ⟨r, hr, rfl⟩
      exact ⟨⟨r.value, carriedCreateRevision r, r.id, r.lease⟩, r, hr, rfl, by simp [toEntry, hd r hr]⟩
    · rintro ⟨e, r, hr, rfl, -⟩
      exact ⟨r, hr, rfl⟩
  have hnames : l₁.map Row.name = l₂.map Row.name :=
    eq_of_sorted_of_mem_iff (List.pairwise_map.mpr h₁) (List.pairwise_map.mpr h₂) fun k => by
      rw [hmem hd₁, hmem hd₂]
      exact exists_congr fun e => he k e
  simpa using congrArg List.length hnames

/-- Snapshot reads are repeatable: a listing at a revision the id counter has passed says the same of
every name, and counts the same, in every later state of the run whose watermark is at most that revision. -/
theorem snapshot_reads_repeatable {sid : Nat} {s s' : Sys} (hs : Reachable ClientKey sid s)
    (hss : Relation.ReflTransGen (Step ClientKey) s s') {R : Int} (hR : R ≤ s.db.seq)
    (hw : s'.db.watermark ≤ R) (pfx startKey : Bytes) :
    (∀ k e, (∃ r ∈ Generic.list s'.db pfx startKey 0 R false, r.name = k ∧ toEntry r = some e) ↔
      (∃ r ∈ Generic.list s.db pfx startKey 0 R false, r.name = k ∧ toEntry r = some e)) ∧
    (Generic.count s'.db pfx startKey R).2 = (Generic.count s.db pfx startKey R).2 := by
  obtain ⟨-, hwm, hhist⟩ := hs.later hss
  obtain ⟨he', hd', hsorted'⟩ :=
    list_above_watermark (Reachable.inv (Relation.ReflTransGen.trans hs hss)) hw pfx startKey
  obtain ⟨he, hd, hsorted⟩ := list_above_watermark hs.inv (hwm.trans hw) pfx startKey
  have hent : ∀ k e, (∃ r ∈ Generic.list s'.db pfx startKey 0 R false, r.name = k ∧ toEntry r = some e) ↔
      (∃ r ∈ Generic.list s.db pfx startKey 0 R false, r.name = k ∧ toEntry r = some e) := fun k e => by
    rw [he', he, hhist R hR]
  rw [count_eq_length, count_eq_length]
  exact ⟨hent, congrArg _ (length_eq_of_entries hsorted' hsorted hd' hd hent)⟩

theorem snapshot_reads_repeatable_compacted :
    let s := sampleWrites
    let s' := sampleCompacted
    Reachable ClientKey 1 s ∧ Relation.ReflTransGen (Step ClientKey) s s' ∧ (4 : Int) ≤ s.db.seq ∧
      s'.db.watermark ≤ 4 ∧
      ((∀ k e, (∃ r ∈ Generic.list s'.db (ascii "/") [] 0 4 false, r.name = k ∧ toEntry r = some e) ↔
        (∃ r ∈ Generic.list s.db (ascii "/") [] 0 4 false, r.name = k ∧ toEntry r = some e)) ∧
      (Generic.count s'.db (ascii "/") [] 4).2 = (Generic.count s.db (ascii "/") [] 4).2) := by
  intro s s'
  exact ⟨sampleWrites_reachable, sampleWrites_run_compacted, by decide, by decide,
    snapshot_reads_repeatable sampleWrites_reachable sampleWrites_run_compacted (by decide) (by decide) (ascii "/") []⟩

end K8sDqlite
