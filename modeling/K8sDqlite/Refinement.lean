import K8sDqlite.Invariant

namespace K8sDqlite

theorem IdSorted.nodup_ids {l : List Row} (hl : IdSorted l) : (l.map Row.id).Nodup :=
  List.pairwise_map.mpr (List.Pairwise.imp ne_of_lt hl)

/-- A write at id `id` does on the table what the compare-and-swap does on the abstract store `st`:
when the abstract write fails, Generic's write returns `(0, false)` and leaves the table unchanged;
when it yields `st'`, Generic's write returns `(id, true)` and the new table's client keys hold `st'`. -/
def WriteRefines (st : Store) (db : Db) (w : Write) (id : Int) (hid : db.seq < id) : Prop :=
  match st.write id w with
  | some st' => (Generic.write db w id hid).2 = (id, true) ∧
      ∀ k, ClientKey k → st' k = (latest (Generic.write db w id hid).1.rows k).bind toEntry
  | none => Generic.write db w id hid = (db, 0, false)

/-- The revision log refines the abstract store. In every state of a run on client keys, the client
keys' rows at MAX(id) are the store the run's successful writes built, and the next write does what
the abstract compare-and-swap does on it. -/
theorem write_refines {sid : Nat} {s : Sys} (hs : Reachable ClientKey sid s) (w : Write) (hk : ClientKey w.key)
    (id : Int) (hid : s.db.seq < id) :
    (∀ k, ClientKey k → s.hist.current k = (latest s.db.rows k).bind toEntry) ∧
      WriteRefines s.hist.current s.db w id hid := by
  have h := hs.inv
  refine ⟨fun k hk => h.hist_current hk, ?_⟩
  have hsel := Write.select_store s.db.rows id w _ (h.hist_current hk)
  unfold WriteRefines
  rcases hy : w.select s.db.rows id with _ | y
  · rw [hsel, hy, Option.map_none']
    exact Generic.write_of_select_none hid hy
  · rw [hsel, hy, Option.map_some']
    refine ⟨(Generic.write_of_select_some hid hy).2.2, fun k hk' => ?_⟩
    have hnew := (h.write hk hid).hist_current hk'
    rwa [(h.write_of_some hk hid hy).2.2.1, History.current_append] at hnew

theorem write_refines_create : Reachable ClientKey 1 (Sys.init 1) ∧ ClientKey (ascii "a") ∧
    (Sys.init 1).db.seq < 2 ∧
    ((∀ k, ClientKey k → (Sys.init 1).hist.current k = (latest (Sys.init 1).db.rows k).bind toEntry) ∧
      WriteRefines (Sys.init 1).hist.current (Sys.init 1).db (.create (ascii "a") none 0) 2 (by decide)) :=
  ⟨.refl, by decide, by decide, write_refines .refl (.create (ascii "a") none 0) (by decide) 2 (by decide)⟩

/-- Compaction is complete below the watermark: each client key keeps at most one row at or below
it, live, the latest of the key's write history there and the abstract store's entry there. -/
theorem compaction_complete {sid : Nat} {s : Sys} (hs : Reachable ClientKey sid s) {k : Bytes} (hk : ClientKey k) :
    (∀ x ∈ rowsOf s.db.rows k, ∀ y ∈ rowsOf s.db.rows k, x.id ≤ s.db.watermark → y.id ≤ s.db.watermark → x = y) ∧
    ∀ x ∈ rowsOf s.db.rows k, x.id ≤ s.db.watermark →
      x.deleted = false ∧ latest (atRevision s.log (some s.db.watermark)) k = some x ∧
        s.hist.at s.db.watermark k = toEntry x := by
  have h := hs.inv
  have hlast : ∀ x ∈ rowsOf s.db.rows k, ∀ y ∈ rowsOf s.db.rows k, x.id < y.id → s.db.watermark < y.id :=
    fun x hx => (mem_compacted.mp ((h.below hk).symm ▸ hx : x ∈ compacted (rowsOf s.db.rows k) _)).2.1
  have huniq : ∀ x ∈ rowsOf s.db.rows k, ∀ y ∈ rowsOf s.db.rows k, x.id ≤ s.db.watermark →
      y.id ≤ s.db.watermark → x = y := fun x hx y hy hxw hyw =>
    s.db.id_injective (mem_rowsOf.mp hx).1 (mem_rowsOf.mp hy).1
      (le_antisymm (not_lt.mp fun hyx => absurd (hlast y hy x hx hyx) (not_lt.mpr hxw))
        (not_lt.mp fun hxy => absurd (hlast x hx y hy hxy) (not_lt.mpr hyw)))
  refine ⟨huniq, fun x hx hxw => ?_⟩
  rw [h.present k hk] at hx
  obtain ⟨hxl, hxlast, hxlive⟩ := mem_compacted.mp hx
  rw [← h.present k hk] at hx
  have hlog : latest (atRevision s.log (some s.db.watermark)) k = some x := by
    rw [latest, atRevision_some, rowsOf_filter]
    exact argmax_filter_le (h.log_sorted k hk).nodup_ids hxl hxw hxlast
  have hrows : latest (atRevision s.db.rows (some s.db.watermark)) k = some x := by
    rw [latest, atRevision_some, rowsOf_filter]
    exact argmax_filter_le (s.db.nodup_rowsOf k) hx hxw (hlast x hx)
  refine ⟨hxlive hxw, hlog, ?_⟩
  rw [h.hist _ le_rfl k hk, hrows]
  rfl

theorem compaction_complete_compacted :
    let s := sampleCompacted
    Reachable ClientKey 1 s ∧ ClientKey (ascii "/a") ∧
    ((∀ x ∈ rowsOf s.db.rows (ascii "/a"), ∀ y ∈ rowsOf s.db.rows (ascii "/a"),
        x.id ≤ s.db.watermark → y.id ≤ s.db.watermark → x = y) ∧
      ∀ x ∈ rowsOf s.db.rows (ascii "/a"), x.id ≤ s.db.watermark →
        x.deleted = false ∧ latest (atRevision s.log (some s.db.watermark)) (ascii "/a") = some x ∧
          s.hist.at s.db.watermark (ascii "/a") = toEntry x) := by
  intro s
  exact ⟨sampleCompacted_reachable, by decide, compaction_complete sampleCompacted_reachable (by decide)⟩

/-- The log stays well formed: on each client key, a row and the next surviving row are linked as
the write path links them, and the surviving rows are a suffix of the key's write history. -/
theorem links_preserved {sid : Nat} {s : Sys} (hs : Reachable ClientKey sid s) {k : Bytes} (hk : ClientKey k) :
    (∀ x ∈ rowsOf s.db.rows k, ∀ y ∈ rowsOf s.db.rows k, Adjacent (rowsOf s.db.rows k) x y → Follows x y) ∧
      List.IsSuffix (rowsOf s.db.rows k) (rowsOf s.log k) := by
  have h := hs.inv
  exact ⟨h.links k hk, h.present k hk ▸ compacted_suffix (h.log_sorted k hk) _⟩

theorem links_preserved_compacted :
    let s := sampleCompacted
    Reachable ClientKey 1 s ∧ ClientKey (ascii "/b") ∧
    ((∀ x ∈ rowsOf s.db.rows (ascii "/b"), ∀ y ∈ rowsOf s.db.rows (ascii "/b"),
        Adjacent (rowsOf s.db.rows (ascii "/b")) x y → Follows x y) ∧
      List.IsSuffix (rowsOf s.db.rows (ascii "/b")) (rowsOf s.log (ascii "/b"))) := by
  intro s
  exact ⟨sampleCompacted_reachable, by decide, links_preserved sampleCompacted_reachable (by decide)⟩

end K8sDqlite
