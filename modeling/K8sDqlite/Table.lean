import K8sDqlite.Key

namespace K8sDqlite

/-- A row of the kine table; `created` and `deleted` are its 0/1 columns. -/
structure Row where
  id : Int
  name : Bytes
  created : Bool
  deleted : Bool
  createRevision : Int
  prevRevision : Int
  lease : Int
  value : Option Bytes
  oldValue : Option Bytes
  deriving DecidableEq, Repr

/-- The kine table: rows under the INTEGER PRIMARY KEY `id`, with AUTOINCREMENT's counter `seq`,
the largest id ever inserted. -/
structure Db where
  rows : List Row
  seq : Int
  nodup : (rows.map Row.id).Nodup
  le_seq : ∀ r ∈ rows, r.id ≤ seq

instance intLeAntisymm : Std.Antisymm ((· ≤ ·) : Int → Int → Prop) := ⟨fun h₁ h₂ => le_antisymm h₁ h₂⟩

/-- `SELECT MAX(col) FROM rows`: NULL on no rows. -/
def sqlMax (rows : List Row) (col : Row → Int) : Option Int := (rows.map col).max?

theorem sqlMax_eq_some_iff {rows : List Row} {col : Row → Int} {m : Int} :
    sqlMax rows col = some m ↔ (∃ r ∈ rows, col r = m) ∧ ∀ r ∈ rows, col r ≤ m := by
  rw [sqlMax, List.max?_eq_some_iff (fun _ => le_refl _) (fun a b => max_choice a b)
    (fun _ _ _ => max_le_iff)]
  simp

theorem sqlMax_eq_none_iff {rows : List Row} {col : Row → Int} : sqlMax rows col = none ↔ rows = [] := by
  simp [sqlMax]

/-- The rows of one name, in table order. -/
def rowsOf (rows : List Row) (key : Bytes) : List Row := rows.filter (·.name = key)

/-- The row at a name's MAX(id): `WHERE id = (SELECT MAX(id) FROM kine WHERE name = ?)`. -/
def latest (rows : List Row) (key : Bytes) : Option Row := (rowsOf rows key).argmax Row.id

@[simp] theorem mem_rowsOf {rows : List Row} {key : Bytes} {r : Row} :
    r ∈ rowsOf rows key ↔ r ∈ rows ∧ r.name = key := by
  simp [rowsOf]

@[simp] theorem rowsOf_append (l m : List Row) (key : Bytes) :
    rowsOf (l ++ m) key = rowsOf l key ++ rowsOf m key := by simp [rowsOf]

theorem rowsOf_singleton (r : Row) (key : Bytes) :
    rowsOf [r] key = if r.name = key then [r] else [] := by
  by_cases h : r.name = key <;> simp [rowsOf, h]

/-- `a.id < b.id`: the order of insertion for rows given a fresh id. -/
def idLt (a b : Row) : Prop := a.id < b.id

instance idLtIrrefl : IsIrrefl Row idLt := ⟨fun a => lt_irrefl a.id⟩
instance idLtTrans : IsTrans Row idLt := ⟨fun _ _ _ => lt_trans⟩
instance idLtAntisymm : IsAntisymm Row idLt := ⟨fun _ _ h₁ h₂ => absurd (lt_trans h₁ h₂) (lt_irrefl _)⟩

/-- Strictly increasing ids, in list order. -/
def IdSorted (l : List Row) : Prop := l.Sorted idLt

/-- Two lists strictly sorted by the same relation, with the same members, are equal. -/
theorem eq_of_sorted_of_mem_iff {α : Type} {r : α → α → Prop} [IsIrrefl α r] [IsAntisymm α r]
    {l₁ l₂ : List α} (h₁ : l₁.Sorted r) (h₂ : l₂.Sorted r) (h : ∀ x, x ∈ l₁ ↔ x ∈ l₂) : l₁ = l₂ :=
  List.eq_of_perm_of_sorted ((List.perm_ext_iff_of_nodup h₁.nodup h₂.nodup).mpr h) h₁ h₂

/-- In a strictly sorted list, the elements after the first `n` are those past the `n`-th. -/
theorem mem_drop_iff_of_sorted {α : Type} {r : α → α → Prop} [IsTrans α r] [IsIrrefl α r]
    {l : List α} {n : Nat} {a : α} (hl : l.Sorted r) (ha : (l.take n).getLast? = some a) {x : α} :
    x ∈ l.drop n ↔ x ∈ l ∧ r a x := by
  have hsplit := List.take_append_drop n l
  have hs : (l.take n ++ l.drop n).Sorted r := hsplit.symm ▸ hl
  simp only [List.Sorted, List.pairwise_append] at hs
  obtain ⟨t, ht⟩ := List.getLast?_eq_some_iff.mp ha
  have hbefore : ∀ y ∈ t, r y a := by
    have := hs.1; rw [ht, List.pairwise_append] at this
    exact fun y hy => this.2.2 y hy a (List.mem_singleton_self a)
  constructor
  · intro hx
    exact ⟨List.mem_of_mem_drop hx, hs.2.2 a (ht ▸ List.mem_append_right t (List.mem_singleton_self a)) x hx⟩
  · rintro ⟨hx, hax⟩
    rw [← hsplit, List.mem_append, ht, List.mem_append, List.mem_singleton] at hx
    rcases hx with (hx | rfl) | hx
    · exact absurd (IsTrans.trans _ _ _ (hbefore x hx) hax) (irrefl x)
    · exact absurd hax (irrefl x)
    · exact hx

theorem argmax_eq_getLast? {l : List Row} (hl : IdSorted l) : l.argmax Row.id = l.getLast? := by
  induction l using List.reverseRecOn with
  | nil => rfl
  | append_singleton l a ih =>
    have hs : IdSorted l ∧ ∀ x ∈ l, x.id < a.id := by
      simpa [IdSorted, idLt, List.Sorted, List.pairwise_append] using hl
    rw [List.argmax_concat, ih hs.1, List.getLast?_append]
    cases hg : l.getLast? with
    | none => rfl
    | some c => simp [hs.2 c (List.mem_of_getLast?_eq_some hg)]

theorem latest_eq_getLast? {rows : List Row} {key : Bytes} (hs : IdSorted (rowsOf rows key)) :
    latest rows key = (rowsOf rows key).getLast? :=
  argmax_eq_getLast? hs

theorem latest_mem {rows : List Row} {key : Bytes} {r : Row} (h : latest rows key = some r) :
    r ∈ rows ∧ r.name = key :=
  mem_rowsOf.mp (List.argmax_mem h)

theorem latest_eq_none {rows : List Row} {key : Bytes} :
    latest rows key = none ↔ ∀ r ∈ rows, r.name ≠ key := by
  simp [latest, rowsOf, List.argmax_eq_none, List.filter_eq_nil_iff]

/-- Modelled from the spec: the schema migration is not under src/. It creates the table with one row
named `compact_rev_key`, whose prev_revision holds the compact watermark. -/
def marker (id prevRevision : Int) : Row :=
  { id, name := compactRevKey, created := false, deleted := false, createRevision := 0, prevRevision,
    lease := 0, value := none, oldValue := none }

/-- SQLite's largest rowid, 2^63 - 1: AUTOINCREMENT gives out no id above it. -/
def maxRowid : Int := 9223372036854775807

namespace Db

/-- Modelled from the spec: a fresh table holds only the marker, at watermark 0. -/
def init (sid : Nat) : Db := ⟨[marker sid 0], sid, by simp, by simp [marker]⟩

theorem id_not_mem (db : Db) {id : Int} (h : db.seq < id) : id ∉ db.rows.map Row.id := by
  simp only [List.mem_map, not_exists, not_and]
  exact fun x hx hid => absurd (hid ▸ db.le_seq x hx) (not_le.mpr h)

theorem id_injective (db : Db) {a b : Row} (ha : a ∈ db.rows) (hb : b ∈ db.rows) (h : a.id = b.id) :
    a = b :=
  List.inj_on_of_nodup_map db.nodup ha hb h

/-- An INSERT without an id: the engine gives out one above every id it gave out before. -/
def append (db : Db) (r : Row) (h : db.seq < r.id) : Db where
  rows := db.rows ++ [r]
  seq := r.id
  nodup := by simpa using db.nodup.concat (db.id_not_mem h)
  le_seq := by
    simp only [List.mem_append, List.mem_singleton]
    rintro x (hx | rfl)
    · exact (db.le_seq x hx).trans h.le
    · exact le_rfl

/-- An INSERT with an explicit id, as FillSQL's: a present id is a constraint violation. -/
def appendAt (db : Db) (r : Row) (h : r.id ∉ db.rows.map Row.id) : Db where
  rows := db.rows ++ [r]
  seq := max db.seq r.id
  nodup := by simpa using db.nodup.concat h
  le_seq := by
    simp only [List.mem_append, List.mem_singleton]
    rintro x (hx | rfl)
    · exact le_max_of_le_left (db.le_seq x hx)
    · exact le_max_right _ _

/-- `DELETE FROM kine WHERE p`. -/
def delete (db : Db) (p : Row → Bool) : Db where
  rows := db.rows.filter (fun r => !p r)
  seq := db.seq
  nodup := (db.nodup.sublist (List.Sublist.map _ (List.filter_sublist _)))
  le_seq := fun r hr => db.le_seq r (List.mem_of_mem_filter hr)

/-- `UPDATE kine SET ...`: a change to every row that keeps its id. -/
def update (db : Db) (f : Row → Row) (hf : ∀ r, (f r).id = r.id) : Db where
  rows := db.rows.map f
  seq := db.seq
  nodup := by rw [List.map_map, show Row.id ∘ f = Row.id from funext hf]; exact db.nodup
  le_seq := by simpa [hf] using db.le_seq

@[simp] theorem append_rows (db : Db) (r : Row) (h) : (db.append r h).rows = db.rows ++ [r] := rfl
@[simp] theorem append_seq (db : Db) (r : Row) (h) : (db.append r h).seq = r.id := rfl
@[simp] theorem appendAt_rows (db : Db) (r : Row) (h) : (db.appendAt r h).rows = db.rows ++ [r] := rfl
@[simp] theorem appendAt_seq (db : Db) (r : Row) (h) : (db.appendAt r h).seq = max db.seq r.id := rfl
@[simp] theorem delete_rows (db : Db) (p) : (db.delete p).rows = db.rows.filter (fun r => !p r) := rfl
@[simp] theorem delete_seq (db : Db) (p) : (db.delete p).seq = db.seq := rfl
@[simp] theorem update_rows (db : Db) (f) (hf) : (db.update f hf).rows = db.rows.map f := rfl
@[simp] theorem update_seq (db : Db) (f) (hf) : (db.update f hf).seq = db.seq := rfl

end Db

end K8sDqlite
