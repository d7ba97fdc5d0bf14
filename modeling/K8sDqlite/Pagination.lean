import K8sDqlite.Query

namespace K8sDqlite

section Pages

variable (db : Db) (hnames : ∀ r ∈ db.rows, 0 ∉ r.name)

include hnames

/-- The rows past a page boundary `k` are those of the whole listing that sort after `k`. -/
theorem listSQL_past (pfx k : Bytes) (revision : Option Int) (includeDeleted : Bool) (hk : k ≠ [])
    (hkin : keyLe pfx k) :
    ∀ x, x ∈ listSQL db.rows (keyRange pfx k) revision includeDeleted ↔
      x ∈ listSQL db.rows (keyRange pfx []) revision includeDeleted ∧ keyLt k x.name := by
  intro x
  simp only [mem_listSQL, keyRange, hk, if_false, if_true, InRange, getPrefixRange_fst]
  constructor
  · rintro ⟨⟨hstart, hend⟩, hl, hd⟩
    have hx := hnames x (mem_of_mem_atRevision (latest_mem hl).1)
    have hkx := (keyLe_append_one_iff k x.name hx).mp hstart
    exact ⟨⟨⟨keyLe_of_le_of_lt hkin hkx, hend⟩, hl, hd⟩, hkx⟩
  · rintro ⟨⟨⟨-, hend⟩, hl, hd⟩, hkx⟩
    have hx := hnames x (mem_of_mem_atRevision (latest_mem hl).1)
    exact ⟨⟨(keyLe_append_one_iff k x.name hx).mpr hkx, hend⟩, hl, hd⟩

/-- A first page followed by the page after its last key is the whole listing, when that key is not
the empty key. -/
theorem listSQL_page (pfx : Bytes) (revision : Option Int) (includeDeleted : Bool) (n : Nat) (k : Bytes)
    (hk0 : k ≠ []) (hk : ((listSQL db.rows (keyRange pfx []) revision includeDeleted).take n).getLast?.map Row.name = some k) :
    (listSQL db.rows (keyRange pfx []) revision includeDeleted).take n ++
        listSQL db.rows (keyRange pfx k) revision includeDeleted =
      listSQL db.rows (keyRange pfx []) revision includeDeleted := by
  obtain ⟨a, ha, rfl⟩ := Option.map_eq_some'.mp hk
  have hF := (mem_listSQL db).mp (List.mem_of_mem_take (List.mem_of_getLast?_eq_some ha))
  have hkin : keyLe pfx a.name := by simpa [keyRange, InRange, getPrefixRange_fst] using hF.1.1
  have hsorted := listSQL_sorted db (keyRange pfx []) revision includeDeleted
  conv_rhs => rw [← List.take_append_drop n (listSQL db.rows (keyRange pfx []) revision includeDeleted)]
  congr 1
  refine eq_of_sorted_of_mem_iff (listSQL_sorted db _ revision includeDeleted)
    (hsorted.sublist (List.drop_sublist _ _)) fun x => ?_
  rw [listSQL_past db hnames pfx a.name revision includeDeleted hk0 hkin,
    mem_drop_iff_of_sorted hsorted ha]
  rfl

end Pages

/-- Pagination neither loses nor repeats keys when the first page ends at a non-empty key, and the
count agrees with the list: for List with ListRevisionStartSQL and GetRevisionAfterSQL serving the
two pages, and for ListCurrent. -/
theorem list_pages (db : Db) (hnames : ∀ r ∈ db.rows, 0 ∉ r.name) (pfx : Bytes) (revision : Int)
    (includeDeleted : Bool) (limit : Int) (hlimit : 0 < limit) (k : Bytes) :
    (k ≠ [] → (Generic.list db pfx [] limit revision includeDeleted).getLast?.map Row.name = some k →
      Generic.list db pfx [] limit revision includeDeleted ++ Generic.list db pfx k 0 revision includeDeleted =
        Generic.list db pfx [] 0 revision includeDeleted) ∧
    (Generic.count db pfx k revision).2 = (Generic.list db pfx k 0 revision false).length ∧
    (k ≠ [] → (Generic.listCurrent db pfx [] limit includeDeleted).getLast?.map Row.name = some k →
      Generic.listCurrent db pfx [] limit includeDeleted ++ Generic.listCurrent db pfx k 0 includeDeleted =
        Generic.listCurrent db pfx [] 0 includeDeleted) ∧
    (Generic.countCurrent db pfx k).2 = (Generic.listCurrent db pfx k 0 false).length := by
  simp only [list_eq, Generic.listCurrent, Generic.count, Generic.countCurrent, withLimit, hlimit, if_true, lt_irrefl, if_false]
  exact ⟨listSQL_page db hnames pfx _ includeDeleted _ k, trivial, listSQL_page db hnames pfx _ includeDeleted _ k, trivial⟩

theorem list_pages_sample : (∀ r ∈ sampleDb.rows, 0 ∉ r.name) ∧ (0 : Int) < 2 ∧
    ((ascii "/b" ≠ [] → (Generic.list sampleDb (ascii "/") [] 2 5 false).getLast?.map Row.name = some (ascii "/b") →
      Generic.list sampleDb (ascii "/") [] 2 5 false ++ Generic.list sampleDb (ascii "/") (ascii "/b") 0 5 false =
        Generic.list sampleDb (ascii "/") [] 0 5 false) ∧
    (Generic.count sampleDb (ascii "/") (ascii "/b") 5).2 = (Generic.list sampleDb (ascii "/") (ascii "/b") 0 5 false).length ∧
    (ascii "/b" ≠ [] → (Generic.listCurrent sampleDb (ascii "/") [] 2 false).getLast?.map Row.name = some (ascii "/b") →
      Generic.listCurrent sampleDb (ascii "/") [] 2 false ++ Generic.listCurrent sampleDb (ascii "/") (ascii "/b") 0 false =
        Generic.listCurrent sampleDb (ascii "/") [] 0 false) ∧
    (Generic.countCurrent sampleDb (ascii "/") (ascii "/b")).2 = (Generic.listCurrent sampleDb (ascii "/") (ascii "/b") 0 false).length) :=
  ⟨by decide, by decide, list_pages sampleDb (by decide) (ascii "/") 5 false 2 (by decide) (ascii "/b")⟩

/-- A page that ends at the empty key: List from the empty start key starts over, so the pages repeat
the row. Create of the empty key inserts this row. -/
theorem list_pages_empty_key :
    let db := (Db.init 1).append ⟨2, [], true, false, 0, 0, 0, some (ascii "v"), none⟩ (by decide)
    (∀ r ∈ db.rows, 0 ∉ r.name) ∧ (Generic.list db [] [] 1 5 false).getLast?.map Row.name = some [] ∧
      Generic.list db [] [] 1 5 false ++ Generic.list db [] [] 0 5 false ≠ Generic.list db [] [] 0 5 false := by
  intro db
  exact ⟨by decide, by decide, by decide⟩

end K8sDqlite
