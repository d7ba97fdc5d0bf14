import Mathlib.Data.List.Sort
import Mathlib.Data.List.MinMax
import Mathlib.Data.List.Dedup
import Mathlib.Data.List.Lex
import Mathlib.Logic.Relation
import Mathlib.Tactic.SplitIfs
import Mathlib.Tactic.ByContra
import Mathlib.Algebra.Order.Ring.Int

namespace K8sDqlite

/-- A Go string or byte slice: the kine columns `name`, `value` and `old_value`. -/
abbrev Bytes := List UInt8

/-- An ASCII literal of the source, as the bytes Go and SQLite see. -/
def ascii (s : String) : Bytes := s.toList.map Char.toUInt8

def compactRevKey : Bytes := ascii "compact_rev_key"

/-- The name Fill gives its row: `fmt.Sprintf("gap-%d", revision)`. -/
def fillName (revision : Int) : Bytes := ascii ("gap-" ++ toString revision)

/-- Generic.IsFill: `strings.HasPrefix(key, "gap-")`. -/
def Generic.isFill (key : Bytes) : Bool := (ascii "gap-").isPrefixOf key

/-- The keys clients write: not the compaction marker, not a gap name. -/
def ClientKey (key : Bytes) : Prop := key ≠ compactRevKey ∧ Generic.isFill key = false

instance decClientKey : DecidablePred ClientKey := fun _ => inferInstanceAs (Decidable (_ ∧ _))

theorem isFill_fillName (revision : Int) : Generic.isFill (fillName revision) = true := by
  simp [Generic.isFill, fillName, ascii, List.isPrefixOf_iff_prefix]

theorem isFill_compactRevKey : Generic.isFill compactRevKey = false := by decide

theorem fillName_ne_compactRevKey (revision : Int) : fillName revision ≠ compactRevKey := by
  intro h
  simpa [← h, isFill_fillName] using isFill_compactRevKey

theorem ClientKey.ne_fillName {key : Bytes} (hk : ClientKey key) (revision : Int) :
    key ≠ fillName revision := by
  rintro rfl
  simpa [isFill_fillName] using hk.2

theorem byte_eq_iff {a b : UInt8} : a = b ↔ a.toNat = b.toNat := ⟨congrArg _, UInt8.toNat.inj⟩

theorem byte_lt_iff {a b : UInt8} : a < b ↔ a.toNat < b.toNat := Iff.rfl

theorem byte_trichotomy (a b : UInt8) : a < b ∨ a = b ∨ b < a := by
  simp only [byte_lt_iff, byte_eq_iff]
  omega

instance byteOrder : IsStrictTotalOrder UInt8 (· < ·) where
  trichotomous := byte_trichotomy
  irrefl := UInt8.lt_irrefl
  trans _ _ _ := UInt8.lt_trans

/-- SQLite's BINARY collation on TEXT: bytes compared unsigned, a proper prefix first. -/
def keyLt (a b : Bytes) : Prop := List.Lex (· < ·) a b

/-- `a <= b` in SQL. -/
def keyLe (a b : Bytes) : Prop := ¬ keyLt b a

instance decKeyLt : DecidableRel keyLt := List.Lex.decidableRel (· < ·)

instance decKeyLe : DecidableRel keyLe := fun a b => inferInstanceAs (Decidable ¬ keyLt b a)

instance keyOrder : IsStrictTotalOrder Bytes keyLt :=
  have : IsStrictWeakOrder Bytes (List.Lex (· < ·)) := isStrictWeakOrder_of_isOrderConnected
  { this, List.Lex.isTrichotomous ((· < ·) : UInt8 → UInt8 → Prop) with }

@[simp] theorem keyLt_nil_cons (b : UInt8) (m : Bytes) : keyLt [] (b :: m) := .nil

@[simp] theorem not_keyLt_nil (l : Bytes) : ¬ keyLt l [] := List.Lex.not_nil_right _ _

@[simp] theorem keyLt_cons_cons (a b : UInt8) (l m : Bytes) :
    keyLt (a :: l) (b :: m) ↔ a < b ∨ a = b ∧ keyLt l m := by
  constructor
  · rintro (_ | h | h)
    · exact .inr ⟨rfl, h⟩
    · exact .inl h
  · rintro (h | ⟨rfl, h⟩)
    · exact .rel h
    · exact .cons h

theorem keyLt_irrefl (a : Bytes) : ¬ keyLt a a := irrefl a

theorem keyLt_trans {a b c : Bytes} : keyLt a b → keyLt b c → keyLt a c := IsTrans.trans _ _ _

theorem keyLe_iff {a b : Bytes} : keyLe a b ↔ keyLt a b ∨ a = b := by
  rcases trichotomous_of keyLt a b with h | rfl | h
  · exact ⟨fun _ => .inl h, fun _ hba => keyLt_irrefl a (keyLt_trans h hba)⟩
  · exact ⟨fun _ => .inr rfl, fun _ => keyLt_irrefl a⟩
  · exact ⟨fun hn => absurd h hn, fun h' => h'.elim (fun hab => absurd (keyLt_trans h hab) (keyLt_irrefl b))
      (fun hab => hab ▸ keyLt_irrefl a)⟩

theorem keyLe_of_le_of_lt {a b c : Bytes} (hab : keyLe a b) (hbc : keyLt b c) : keyLe a c := by
  rcases keyLe_iff.mp hab with h | rfl
  · exact keyLe_iff.mpr (.inl (keyLt_trans h hbc))
  · exact keyLe_iff.mpr (.inl hbc)

/-- `name >= start AND name < end`: the half-open range every range read filters on. -/
def InRange (range : Bytes × Bytes) (key : Bytes) : Prop := keyLe range.1 key ∧ keyLt key range.2

instance decInRange (range : Bytes × Bytes) : DecidablePred (InRange range) :=
  fun _ => inferInstanceAs (Decidable (_ ∧ _))

/-- getPrefixRange: a prefix ending in `/` covers its subtree, up to the next byte `0`; any other
prefix covers itself only (the source assumes readable keys, so nothing sorts below `\x01`). -/
def getPrefixRange (pfx : Bytes) : Bytes × Bytes :=
  if (ascii "/").isSuffixOf pfx then (pfx, pfx.take (pfx.length - 1) ++ ascii "0")
  else (pfx, pfx ++ ascii "\x01")

/-- The range ListCurrent, List, CountCurrent and Count read: a non-empty startKey replaces the start
with `startKey + "\x01"`. AfterPrefix reads `keyRange pfx []`. -/
def keyRange (pfx startKey : Bytes) : Bytes × Bytes :=
  (if startKey = [] then (getPrefixRange pfx).1 else startKey ++ ascii "\x01", (getPrefixRange pfx).2)

theorem keyRange_nil (pfx : Bytes) : keyRange pfx [] = getPrefixRange pfx := by
  simp [keyRange]

theorem keyLt_cons_self (x : UInt8) (l m : Bytes) : keyLt (x :: l) (x :: m) ↔ keyLt l m := by
  simp [UInt8.lt_irrefl]

theorem keyLe_cons_self (x : UInt8) (l m : Bytes) : keyLe (x :: l) (x :: m) ↔ keyLe l m :=
  not_congr (keyLt_cons_self x m l)

/-- Comparing two keys whose first bytes differ decides nothing past those bytes. -/
theorem keyLt_cons_of_lt {a b : UInt8} (h : a < b) (l m : Bytes) :
    keyLt (a :: l) (b :: m) ∧ ¬ keyLt (b :: m) (a :: l) := by
  simp [h, UInt8.lt_asymm h, (UInt8.ne_of_lt h).symm]

theorem not_zero_lt_one_of_ne {c : UInt8} (hc : c ≠ 0) : ¬ c < 1 := by
  rw [byte_lt_iff]
  rw [Ne, byte_eq_iff] at hc
  exact fun h => hc (by change c.toNat < 1 at h; change c.toNat = 0; omega)

/-- The keys between `p ++ [a]` and `p ++ [a+1]` are those extending `p ++ [a]`. -/
theorem inRange_succ_iff (a b : UInt8) (hab : b.toNat = a.toNat + 1) (p k : Bytes) :
    keyLe (p ++ [a]) k ∧ keyLt k (p ++ [b]) ↔ p ++ [a] <+: k := by
  induction p generalizing k with
  | nil =>
    cases k with
    | nil => simp [keyLe]
    | cons c k =>
      have hc : ¬ c < a ∧ c < b ↔ a = c := by
        rw [byte_lt_iff, byte_lt_iff, byte_eq_iff]
        omega
      simpa [keyLe] using hc
  | cons x p ih =>
    cases k with
    | nil => simp [keyLe]
    | cons c k =>
      rcases byte_trichotomy c x with h | rfl | h
      · simp [keyLe, (keyLt_cons_of_lt h _ _).1, (UInt8.ne_of_lt h).symm]
      · simp only [List.cons_append, keyLe_cons_self, keyLt_cons_self, List.cons_prefix_cons, true_and, ih]
      · simp [(keyLt_cons_of_lt h _ _).2, UInt8.ne_of_lt h]

/-- Without NUL bytes, the only key between `p` and `p ++ [1]` is `p` itself. -/
theorem inRange_one_iff (p k : Bytes) (hk : 0 ∉ k) : keyLe p k ∧ keyLt k (p ++ [1]) ↔ k = p := by
  induction p generalizing k with
  | nil =>
    cases k with
    | nil => simp [keyLe]
    | cons c k => simp [keyLe, not_zero_lt_one_of_ne (List.ne_of_not_mem_cons hk).symm]
  | cons x p ih =>
    cases k with
    | nil => simp [keyLe]
    | cons c k =>
      rcases byte_trichotomy c x with h | rfl | h
      · simp [keyLe, (keyLt_cons_of_lt h _ _).1, UInt8.ne_of_lt h]
      · simp only [List.cons_append, keyLe_cons_self, keyLt_cons_self, List.cons.injEq, true_and,
          ih k (List.not_mem_of_not_mem_cons hk)]
      · simp [(keyLt_cons_of_lt h _ _).2, (UInt8.ne_of_lt h).symm]

/-- Without NUL bytes, `startKey + "\x01" <= k` says exactly that `k` sorts after `startKey`. -/
theorem keyLe_append_one_iff (s k : Bytes) (hk : 0 ∉ k) : keyLe (s ++ [1]) k ↔ keyLt s k := by
  induction s generalizing k with
  | nil =>
    cases k with
    | nil => simp [keyLe]
    | cons c k => simp [keyLe, not_zero_lt_one_of_ne (List.ne_of_not_mem_cons hk).symm]
  | cons x s ih =>
    cases k with
    | nil => simp [keyLe]
    | cons c k =>
      rcases byte_trichotomy c x with h | rfl | h
      · simp [keyLe, (keyLt_cons_of_lt h _ _).1, (keyLt_cons_of_lt h _ _).2]
      · simp only [List.cons_append, keyLe_cons_self, keyLt_cons_self,
          ih k (List.not_mem_of_not_mem_cons hk)]
      · simp [keyLe, (keyLt_cons_of_lt h _ _).1, (keyLt_cons_of_lt h _ _).2]

/-- A key lies in the range of getPrefixRange exactly when it matches the prefix. -/
theorem getPrefixRange_mem_iff (pfx k : Bytes) (hk : 0 ∉ k) :
    InRange (getPrefixRange pfx) k ↔ if (ascii "/").isSuffixOf pfx then pfx <+: k else k = pfx := by
  unfold getPrefixRange InRange
  split_ifs with h
  · obtain ⟨p, rfl⟩ := List.isSuffixOf_iff_suffix.mp h
    simpa [ascii] using inRange_succ_iff 47 48 rfl p k
  · exact inRange_one_iff pfx k hk

theorem getPrefixRange_fst (pfx : Bytes) : (getPrefixRange pfx).1 = pfx := by
  unfold getPrefixRange; split_ifs <;> rfl

/-- The range every read with a prefix and a startKey filters on: the key matches the prefix, and,
for a non-empty startKey that does not sort below the prefix, it sorts after the startKey. -/
theorem keyRange_mem_iff (pfx startKey k : Bytes) (hstart : startKey = [] ∨ keyLe pfx startKey)
    (hk : 0 ∉ k) :
    InRange (keyRange pfx startKey) k ↔
      (if (ascii "/").isSuffixOf pfx then pfx <+: k else k = pfx) ∧
        (startKey ≠ [] → keyLt startKey k) := by
  rw [← getPrefixRange_mem_iff pfx k hk]
  by_cases hs : startKey = []
  · simp [keyRange, hs]
  · have hafter : keyLe (startKey ++ ascii "\x01") k ↔ keyLt startKey k :=
      keyLe_append_one_iff startKey k hk
    simp only [keyRange, hs, if_false, InRange, getPrefixRange_fst, hafter, ne_eq, not_false_eq_true,
      forall_const]
    exact ⟨fun h => ⟨⟨keyLe_of_le_of_lt (hstart.resolve_left hs) h.1, h.2⟩, h.1⟩,
      fun h => ⟨h.2, h.1.2⟩⟩

theorem keyRange_mem_registry : (ascii "/registry/b" = [] ∨ keyLe (ascii "/registry/") (ascii "/registry/b")) ∧
    0 ∉ ascii "/registry/c" ∧
    (InRange (keyRange (ascii "/registry/") (ascii "/registry/b")) (ascii "/registry/c") ↔
      (if (ascii "/").isSuffixOf (ascii "/registry/") then ascii "/registry/" <+: ascii "/registry/c"
        else ascii "/registry/c" = ascii "/registry/") ∧
      (ascii "/registry/b" ≠ [] → keyLt (ascii "/registry/b") (ascii "/registry/c"))) :=
  ⟨by decide, by decide, keyRange_mem_iff _ _ _ (by decide) (by decide)⟩

example : getPrefixRange (ascii "/") = (ascii "/", ascii "0") := by decide

example : getPrefixRange (ascii "a") = (ascii "a", ascii "a\x01") := by decide

end K8sDqlite
