import K8sDqlite.Key

namespace K8sDqlite

/-- The characters ReplaceAllStringFunc puts for the `?`s of a statement, q's closure's counter at
`n`: the parameter, followed by the incremented counter when numbered. -/
def replacePlaceholders (param : String) (numbered : Bool) : Nat → List Char → List Char
  | _, [] => []
  | n, c :: cs =>
    if c = '?' then
      if numbered then (param ++ toString (n + 1)).toList ++ replacePlaceholders param numbered (n + 1) cs
      else param.toList ++ replacePlaceholders param numbered n cs
    else c :: replacePlaceholders param numbered n cs

/-- q: a statement written with `?` placeholders, in the driver's parameter syntax. -/
def q (sql param : String) (numbered : Bool) : String :=
  if param = "?" ∧ numbered = false then sql else ⟨replacePlaceholders param numbered 0 sql.toList⟩

/-- A statement's text with its `?` placeholders bound in order, the `i`-th reading `args[i]`. -/
def bindPositional (args : List String) : Nat → List Char → List Char
  | _, [] => []
  | i, c :: cs =>
    if c = '?' then (args.getD i "").toList ++ bindPositional args (i + 1) cs else c :: bindPositional args i cs

def digitValue (c : Char) : Nat := c.toNat - '0'.toNat

/-- A binder that reads only numbered placeholders: `p` followed by the digits of `n` reads
`args[n - 1]`, a bare `?` stays text; `some n` while the digits after a `p` are read. -/
def bindNumbered (p : Char) (args : List String) : Option Nat → List Char → List Char
  | none, [] => []
  | some n, [] => (args.getD (n - 1) "").toList
  | none, c :: cs => if c = p then bindNumbered p args (some 0) cs else c :: bindNumbered p args none cs
  | some n, c :: cs =>
    if c.isDigit then bindNumbered p args (some (10 * n + digitValue c)) cs
    else (args.getD (n - 1) "").toList ++
      if c = p then bindNumbered p args (some 0) cs else c :: bindNumbered p args none cs

/-- Whether a `?` of a statement is followed right away by a digit. -/
def markBeforeDigit : List Char → Bool
  | c :: d :: cs => (c = '?' && d.isDigit) || markBeforeDigit (d :: cs)
  | _ => false

@[simp] theorem replacePlaceholders_cons (param : String) (numbered : Bool) (n : Nat) (c : Char) (cs : List Char) :
    replacePlaceholders param numbered n (c :: cs) =
      if c = '?' then
        if numbered then (param ++ toString (n + 1)).toList ++ replacePlaceholders param numbered (n + 1) cs
        else param.toList ++ replacePlaceholders param numbered n cs
      else c :: replacePlaceholders param numbered n cs := rfl

@[simp] theorem bindNumbered_none_cons (p : Char) (args : List String) (c : Char) (cs : List Char) :
    bindNumbered p args none (c :: cs) =
      if c = p then bindNumbered p args (some 0) cs else c :: bindNumbered p args none cs := rfl

@[simp] theorem bindNumbered_some_cons (p : Char) (args : List String) (n : Nat) (c : Char) (cs : List Char) :
    bindNumbered p args (some n) (c :: cs) =
      if c.isDigit then bindNumbered p args (some (10 * n + digitValue c)) cs
      else (args.getD (n - 1) "").toList ++ bindNumbered p args none (c :: cs) := rfl

@[simp] theorem bindPositional_cons (args : List String) (i : Nat) (c : Char) (cs : List Char) :
    bindPositional args i (c :: cs) =
      if c = '?' then (args.getD i "").toList ++ bindPositional args (i + 1) cs else c :: bindPositional args i cs := rfl

theorem toString_toList (n : Nat) : (toString n).toList = Nat.toDigitsCore 10 (n + 1) n [] := rfl

theorem toList_mark_append (p : Char) (s : String) : ((⟨[p]⟩ : String) ++ s).toList = p :: s.toList := rfl

theorem markBeforeDigit_tail {c : Char} {cs : List Char} (h : markBeforeDigit (c :: cs) = false) :
    markBeforeDigit cs = false := by
  cases cs with
  | nil => rfl
  | cons d cs => simp only [markBeforeDigit, Bool.or_eq_false_iff] at h; exact h.2

theorem markBeforeDigit_head {cs : List Char} (h : markBeforeDigit ('?' :: cs) = false) :
    ∀ d ∈ cs.head?, d.isDigit = false := by
  cases cs with
  | nil => simp
  | cons d cs => simp_all [markBeforeDigit]

theorem replacePlaceholders_mark_self (n : Nat) (cs : List Char) : replacePlaceholders "?" false n cs = cs := by
  induction cs with
  | nil => rfl
  | cons c cs ih =>
    by_cases hc : c = '?'
    · rw [replacePlaceholders_cons, if_pos hc, if_neg Bool.false_ne_true, ih, hc]; rfl
    · rw [replacePlaceholders_cons, if_neg hc, ih]

theorem digitChar_spec {d : Nat} (h : d < 10) : (Nat.digitChar d).isDigit = true ∧ digitValue (Nat.digitChar d) = d := by
  have hall : ∀ d : Fin 10, (Nat.digitChar d).isDigit = true ∧ digitValue (Nat.digitChar d) = d := by decide
  exact hall ⟨d, h⟩

theorem toDigitsCore_succ (fuel n : Nat) (ds : List Char) :
    Nat.toDigitsCore 10 (fuel + 1) n ds = if n / 10 = 0 then Nat.digitChar (n % 10) :: ds
      else Nat.toDigitsCore 10 fuel (n / 10) (Nat.digitChar (n % 10) :: ds) := rfl

theorem toDigitsCore_append (fuel n : Nat) (ds : List Char) :
    Nat.toDigitsCore 10 fuel n ds = Nat.toDigitsCore 10 fuel n [] ++ ds := by
  induction fuel generalizing n ds with
  | zero => rfl
  | succ fuel ih =>
    rw [toDigitsCore_succ, toDigitsCore_succ]
    split_ifs
    · rfl
    · rw [ih _ (_ :: ds), ih _ [_], List.append_assoc, List.singleton_append]

/-- The decimal digits of `n`, read back by the accumulator of bindNumbered, give `n`. -/
theorem toDigitsCore_value (fuel n : Nat) (h : n < fuel) :
    (∀ c ∈ Nat.toDigitsCore 10 fuel n [], c.isDigit = true) ∧
      (Nat.toDigitsCore 10 fuel n []).foldl (fun m c => 10 * m + digitValue c) 0 = n := by
  induction fuel generalizing n with
  | zero => omega
  | succ fuel ih =>
    have hd := digitChar_spec (Nat.mod_lt n (by decide : 10 > 0))
    rw [toDigitsCore_succ]
    split_ifs with h0
    · simp only [List.mem_singleton, forall_eq, List.foldl_cons, List.foldl_nil, hd.1, hd.2, true_and]
      omega
    · obtain ⟨hds, hv⟩ := ih (n / 10) (by omega)
      rw [toDigitsCore_append, List.foldl_append, hv, List.foldl_cons, List.foldl_nil, hd.2]
      refine ⟨fun c hc => ?_, by omega⟩
      rcases List.mem_append.mp hc with hc | hc
      exacts [hds c hc, (List.mem_singleton.mp hc) ▸ hd.1]

theorem bindNumbered_digits {p : Char} (args : List String) {ds : List Char} (hds : ∀ c ∈ ds, c.isDigit = true)
    (m : Nat) (rest : List Char) :
    bindNumbered p args (some m) (ds ++ rest) =
      bindNumbered p args (some (ds.foldl (fun m c => 10 * m + digitValue c) m)) rest := by
  induction ds generalizing m with
  | nil => rfl
  | cons c ds ih =>
    rw [List.cons_append, bindNumbered_some_cons, if_pos (hds c (List.mem_cons_self _ _)),
      ih (fun c hc => hds c (List.mem_cons_of_mem _ hc))]
    rfl

theorem bindNumbered_some_of_head {p : Char} (args : List String) {cs : List Char}
    (h : ∀ c ∈ cs.head?, c.isDigit = false) (n : Nat) :
    bindNumbered p args (some n) cs = (args.getD (n - 1) "").toList ++ bindNumbered p args none cs := by
  cases cs with
  | nil => simp [bindNumbered]
  | cons c cs => rw [bindNumbered_some_cons, if_neg (show ¬c.isDigit = true by simpa using h c rfl)]

theorem head_replacePlaceholders {p : Char} (n : Nat) (cs : List Char) :
    ∀ c ∈ (replacePlaceholders ⟨[p]⟩ true n cs).head?, c = p ∨ c ∈ cs.head? := by
  cases cs with
  | nil => simp [replacePlaceholders]
  | cons c cs => by_cases hc : c = '?' <;> simp [hc, toList_mark_append]

theorem replacePlaceholders_append (param : String) (n : Nat) (cs ds : List Char) :
    replacePlaceholders param true n (cs ++ ds) =
      replacePlaceholders param true n cs ++ replacePlaceholders param true (n + cs.count '?') ds := by
  induction cs generalizing n with
  | nil => rfl
  | cons c cs ih =>
    by_cases hc : c = '?'
    · subst hc
      rw [List.cons_append, replacePlaceholders_cons, replacePlaceholders_cons, if_pos rfl, if_pos rfl, if_pos rfl,
        if_pos rfl, ih, List.count_cons_self, List.append_assoc, Nat.add_right_comm, Nat.add_assoc]
    · rw [List.cons_append, replacePlaceholders_cons, replacePlaceholders_cons, if_neg hc, if_neg hc, ih,
        List.count_cons_of_ne (Ne.symm hc), List.cons_append]

/-- With a parameter character other than `?`, q's numbered output holds no `?`. -/
theorem not_mem_replacePlaceholders {p : Char} (hp : p ≠ '?') (n : Nat) (cs : List Char) :
    '?' ∉ replacePlaceholders ⟨[p]⟩ true n cs := by
  induction cs generalizing n with
  | nil => exact List.not_mem_nil _
  | cons c cs ih =>
    by_cases hc : c = '?'
    · rw [replacePlaceholders_cons, if_pos hc, if_pos rfl, toList_mark_append, toString_toList, List.cons_append,
        List.mem_cons, List.mem_append, not_or, not_or]
      refine ⟨fun h => hp h.symm, fun h => ?_, ih _⟩
      exact absurd ((toDigitsCore_value (n + 1 + 1) (n + 1) (by omega)).1 _ h) (by decide)
    · rw [replacePlaceholders_cons, if_neg hc, List.mem_cons, not_or]
      exact ⟨fun h => hc h.symm, ih n⟩

theorem replacePlaceholders_limit (p : Char) (m : Nat) :
    replacePlaceholders ⟨[p]⟩ true m " LIMIT ?".toList = " LIMIT ".toList ++ p :: (toString (m + 1)).toList := by
  simp [replacePlaceholders]

/-- Numbering keeps the bindings: each `p n` of q's output reads the argument the `n`-th `?` read,
when the statement has no `p` and no digit right after a `?`, and what follows starts with no digit. -/
theorem bindNumbered_replacePlaceholders {p : Char} (args : List String) (hp : p.isDigit = false) (n : Nat)
    {cs rest : List Char} (hcs : p ∉ cs) (hmark : markBeforeDigit cs = false)
    (hrest : ∀ d ∈ rest.head?, d.isDigit = false) :
    bindNumbered p args none (replacePlaceholders ⟨[p]⟩ true n cs ++ rest) =
      bindPositional args n cs ++ bindNumbered p args none rest := by
  induction cs generalizing n with
  | nil => rfl
  | cons c cs ih =>
    have hc : c ≠ p := fun h => hcs (h ▸ List.mem_cons_self _ _)
    have ih' := fun n => ih n (fun h => hcs (List.mem_cons_of_mem _ h)) (markBeforeDigit_tail hmark)
    by_cases hq : c = '?'
    · subst hq
      obtain ⟨hds, hv⟩ := toDigitsCore_value (n + 1 + 1) (n + 1) (by omega)
      have hhead : ∀ d ∈ (replacePlaceholders ⟨[p]⟩ true (n + 1) cs ++ rest).head?, d.isDigit = false := by
        intro d hd
        rw [List.head?_append, Option.mem_def, Option.or_eq_some] at hd
        rcases hd with hd | ⟨-, hd⟩
        · rcases head_replacePlaceholders (n + 1) cs d hd with rfl | hd
          exacts [hp, markBeforeDigit_head hmark d hd]
        · exact hrest d hd
      rw [replacePlaceholders_cons, if_pos rfl, if_pos rfl, toList_mark_append, toString_toList, List.cons_append,
        List.cons_append, List.append_assoc, bindNumbered_none_cons, if_pos rfl, bindNumbered_digits args hds, hv,
        bindNumbered_some_of_head args hhead, ih' (n + 1), bindPositional_cons, if_pos rfl, List.append_assoc]
      rfl
    · rw [replacePlaceholders_cons, if_neg hq, bindPositional_cons, if_neg hq, List.cons_append, bindNumbered_none_cons,
        if_neg hc, ih' n, List.cons_append]

/-- q keeps what a statement means: the `?` fast path is the rewriting, and q's numbered output bound
by number reads the arguments the statement's `?`s read in order. -/
theorem q_keeps_bindings {sql : String} {p : Char} (args : List String) (hp : p.isDigit = false)
    (hsql : p ∉ sql.toList) (hmark : markBeforeDigit sql.toList = false) :
    q sql "?" false = ⟨replacePlaceholders "?" false 0 sql.toList⟩ ∧
      bindNumbered p args none (q sql ⟨[p]⟩ true).toList = bindPositional args 0 sql.toList := by
  refine ⟨by rw [q, if_pos ⟨rfl, rfl⟩, replacePlaceholders_mark_self]; rfl, ?_⟩
  rw [q, if_neg fun h => Bool.noConfusion h.2]
  simpa [bindNumbered] using bindNumbered_replacePlaceholders args hp 0 hsql hmark
    (show ∀ d ∈ ([] : List Char).head?, d.isDigit = false from fun _ h => nomatch h)

theorem q_keeps_bindings_after_prefix :
    '$'.isDigit = false ∧ '$' ∉ "kv.name >= ? AND kv.name < ? AND kv.id > ?".toList ∧
      markBeforeDigit "kv.name >= ? AND kv.name < ? AND kv.id > ?".toList = false ∧
      (q "kv.name >= ? AND kv.name < ? AND kv.id > ?" "?" false =
          ⟨replacePlaceholders "?" false 0 "kv.name >= ? AND kv.name < ? AND kv.id > ?".toList⟩ ∧
        bindNumbered '$' ["a", "b", "7"] none (q "kv.name >= ? AND kv.name < ? AND kv.id > ?" ⟨['$']⟩ true).toList =
          bindPositional ["a", "b", "7"] 0 "kv.name >= ? AND kv.name < ? AND kv.id > ?".toList) :=
  ⟨by decide, by decide, by decide, q_keeps_bindings ["a", "b", "7"] (by decide) (by decide) (by decide)⟩

/-- `fmt.Sprintf("%s LIMIT ?", sql)`: the statement ListCurrent, List, AfterPrefix and After run
when the limit is positive. -/
def limitSQL (sql : String) (limit : Int) : String := if 0 < limit then sql ++ " LIMIT ?" else sql

example : limitSQL (q "kv.id > ?" "$" true) 5 = "kv.id > $1 LIMIT ?" ∧ q (limitSQL "kv.id > ?" 5) "$" true = "kv.id > $1 LIMIT $2" := by
  decide

end K8sDqlite
