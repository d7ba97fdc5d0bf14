import K8sDqlite.Write

namespace K8sDqlite

section Retry

variable {ε α : Type}

def maxRetries : Nat := 500

/-- Whether the loop breaks after an attempt: on success, or on an error that d.Retry, when set,
does not accept. -/
def stops (retry : Option (ε → Bool)) : Except ε α → Bool
  | .ok _ => true
  | .error e => !retry.any (· e)

/-- The loop of query, execute and Compact, `for ; retryCount < maxRetries; retryCount++`, with
`fuel` passes left: attempt `retryCount` has the outcome `attempt retryCount`, and the loop breaks
when it stops. `last` is the outcome so far. Returns the outcome and retryCount. -/
def retryLoop (retry : Option (ε → Bool)) (attempt : Nat → Except ε α) (last : Except ε α) (retryCount : Nat) :
    Nat → Except ε α × Nat
  | 0 => (last, retryCount)
  | fuel + 1 =>
    if stops retry (attempt retryCount) then (attempt retryCount, retryCount)
    else retryLoop retry attempt (attempt retryCount) (retryCount + 1) fuel

/-- An error as the deferred `fmt.Errorf("<op> (try: %d): %w", retryCount, err)` of query and
execute leaves it. -/
structure TryError (ε : Type) where
  op : String
  retryCount : Nat
  err : ε
  deriving DecidableEq, Repr

def TryError.message (msg : ε → String) (e : TryError ε) : String :=
  e.op ++ " (try: " ++ toString e.retryCount ++ "): " ++ msg e.err

/-- The deferred wrapping of query and execute, with the final retryCount. -/
def wrapTry (op : String) : Except ε α × Nat → Except (TryError ε) α
  | (.ok a, _) => .ok a
  | (.error e, n) => .error ⟨op, n, e⟩

/-- query and execute: the loop from their results at Go's zero values, its error wrapped. -/
def Generic.retried [Inhabited α] (op : String) (retry : Option (ε → Bool)) (attempt : Nat → Except ε α) :
    Except (TryError ε) α :=
  wrapTry op (retryLoop retry attempt (.ok default) 0 maxRetries)

/-- Generic.query, `attempt` giving the outcome of each d.DB.QueryContext. -/
def Generic.query [Inhabited α] (retry : Option (ε → Bool)) (attempt : Nat → Except ε α) : Except (TryError ε) α :=
  Generic.retried "query" retry attempt

/-- Generic.execute, `attempt` giving the outcome of each d.DB.ExecContext. -/
def Generic.execute [Inhabited α] (retry : Option (ε → Bool)) (attempt : Nat → Except ε α) : Except (TryError ε) α :=
  Generic.retried "exec" retry attempt

/-- Generic.Compact's loop, `attempt` giving the outcome of each tryCompact. -/
def Generic.compactRetries (retry : Option (ε → Bool)) (attempt : Nat → Except ε Unit) : Except ε Unit :=
  (retryLoop retry attempt (.ok ()) 0 maxRetries).1

/-- What the loop is for: the first of the first maxRetries attempts that stops it, with its index;
when none does, the last attempt's outcome, with retryCount at maxRetries. -/
def RetryOutcome (retry : Option (ε → Bool)) (attempt : Nat → Except ε α) (r : Except ε α) (n : Nat) : Prop :=
  (∀ i < n, stops retry (attempt i) = false) ∧
    (n < maxRetries ∧ stops retry (attempt n) = true ∧ r = attempt n ∨ n = maxRetries ∧ r = attempt (maxRetries - 1))

theorem retryLoop_spec (retry : Option (ε → Bool)) (attempt : Nat → Except ε α) (fuel : Nat) :
    ∀ {last r : Except ε α} {c n : Nat}, retryLoop retry attempt last c fuel = (r, n) →
      c ≤ n ∧ (∀ i, c ≤ i → i < n → stops retry (attempt i) = false) ∧
        (n < c + fuel ∧ stops retry (attempt n) = true ∧ r = attempt n ∨
          n = c + fuel ∧ r = if fuel = 0 then last else attempt (n - 1)) := by
  induction fuel with
  | zero =>
    intro last r c n h
    cases h
    exact ⟨le_rfl, fun i h1 h2 => absurd h2 (not_lt.mpr h1), .inr ⟨rfl, rfl⟩⟩
  | succ fuel ih =>
    intro last r c n h
    rw [retryLoop] at h
    split_ifs at h with hs
    · cases h
      exact ⟨le_rfl, fun i h1 h2 => absurd h2 (not_lt.mpr h1), .inl ⟨by omega, hs, rfl⟩⟩
    · obtain ⟨hle, hpre, hend⟩ := ih h
      refine ⟨by omega, fun i h1 h2 => ?_, ?_⟩
      · rcases Nat.eq_or_lt_of_le h1 with rfl | h1
        exacts [Bool.eq_false_iff.mpr hs, hpre i h1 h2]
      · rcases hend with ⟨h1, h2, h3⟩ | ⟨h1, h2⟩
        · exact .inl ⟨by omega, h2, h3⟩
        · refine .inr ⟨by omega, ?_⟩
          rw [h2, if_neg (Nat.succ_ne_zero _)]
          split_ifs with h0
          · rw [h1, h0]; rfl
          · rfl

/-- The loop has at most one outcome it is for. -/
theorem RetryOutcome.unique {retry : Option (ε → Bool)} {attempt : Nat → Except ε α} {r r' : Except ε α}
    {n n' : Nat} (h : RetryOutcome retry attempt r n) (h' : RetryOutcome retry attempt r' n') : r = r' ∧ n = n' := by
  obtain ⟨hpre, hend⟩ := h
  obtain ⟨hpre', hend'⟩ := h'
  have hn : n = n' := by
    rcases Nat.lt_trichotomy n n' with hlt | heq | hlt
    · rcases hend with ⟨-, hs, -⟩ | ⟨rfl, -⟩
      · exact absurd (hpre' n hlt) (by rw [hs]; decide)
      · rcases hend' with ⟨h1, -⟩ | ⟨h1, -⟩ <;> omega
    · exact heq
    · rcases hend' with ⟨-, hs, -⟩ | ⟨rfl, -⟩
      · exact absurd (hpre n' hlt) (by rw [hs]; decide)
      · rcases hend with ⟨h1, -⟩ | ⟨h1, -⟩ <;> omega
  subst hn
  refine ⟨?_, rfl⟩
  rcases hend with ⟨h1, -, rfl⟩ | ⟨h1, rfl⟩ <;> rcases hend' with ⟨h2, -, rfl⟩ | ⟨h2, rfl⟩
  all_goals first | rfl | omega

/-- From the start, the loop ends exactly at the outcome it is for. -/
theorem retryLoop_eq_iff (retry : Option (ε → Bool)) (attempt : Nat → Except ε α) (last r : Except ε α) (n : Nat) :
    retryLoop retry attempt last 0 maxRetries = (r, n) ↔ RetryOutcome retry attempt r n := by
  have hfwd : ∀ {r n}, retryLoop retry attempt last 0 maxRetries = (r, n) → RetryOutcome retry attempt r n := by
    intro r n h
    obtain ⟨-, hpre, hend⟩ := retryLoop_spec retry attempt maxRetries h
    refine ⟨fun i hi => hpre i (Nat.zero_le _) hi, ?_⟩
    rcases hend with ⟨h1, h2, h3⟩ | ⟨h1, h2⟩
    · exact .inl ⟨by simpa using h1, h2, h3⟩
    · exact .inr ⟨by simpa using h1, by rw [h2, if_neg (by decide), h1, Nat.zero_add]⟩
  refine ⟨hfwd, fun h => ?_⟩
  obtain ⟨⟨r', n'⟩, hres⟩ : ∃ p, retryLoop retry attempt last 0 maxRetries = p := ⟨_, rfl⟩
  obtain ⟨rfl, rfl⟩ := (hfwd hres).unique h
  exact hres

theorem retried_eq [Inhabited α] (op : String) (retry : Option (ε → Bool)) (attempt : Nat → Except ε α) :
    ∃ r n, RetryOutcome retry attempt r n ∧ Generic.retried op retry attempt = wrapTry op (r, n) :=
  let p := retryLoop retry attempt (.ok default) 0 maxRetries
  ⟨p.1, p.2, (retryLoop_eq_iff retry attempt (.ok default) p.1 p.2).mp rfl, rfl⟩

theorem retried_eq_ok [Inhabited α] (op : String) (retry : Option (ε → Bool)) (attempt : Nat → Except ε α) (a : α) :
    Generic.retried op retry attempt = .ok a ↔ ∃ n, RetryOutcome retry attempt (.ok a) n := by
  obtain ⟨r, n, ho, h⟩ := retried_eq op retry attempt
  rw [h]
  constructor
  · intro h'
    cases r <;> cases h'
    exact ⟨n, ho⟩
  · rintro ⟨n', ho'⟩
    rw [(ho.unique ho').1]
    rfl

theorem retried_eq_error [Inhabited α] (op : String) (retry : Option (ε → Bool)) (attempt : Nat → Except ε α)
    (e : TryError ε) :
    Generic.retried op retry attempt = .error e ↔ e.op = op ∧ RetryOutcome retry attempt (.error e.err) e.retryCount := by
  obtain ⟨r, n, ho, h⟩ := retried_eq op retry attempt
  rw [h]
  constructor
  · intro h'
    cases r <;> cases h'
    exact ⟨rfl, ho⟩
  · rintro ⟨hop, ho'⟩
    obtain ⟨rfl, rfl⟩ := ho.unique ho'
    rw [← hop]
    rfl

/-- The retry loops return what they are for: query and execute the outcome at which their loop stops,
an error wrapped with their name and the final retryCount; Compact's loop the same outcome, unwrapped. -/
theorem retry_loops_outcome [Inhabited α] (retry : Option (ε → Bool)) (attempt : Nat → Except ε α)
    (attemptCompact : Nat → Except ε Unit) :
    (∀ a, Generic.query retry attempt = .ok a ↔ ∃ n, RetryOutcome retry attempt (.ok a) n) ∧
    (∀ e, Generic.query retry attempt = .error e ↔
      e.op = "query" ∧ RetryOutcome retry attempt (.error e.err) e.retryCount) ∧
    (∀ a, Generic.execute retry attempt = .ok a ↔ ∃ n, RetryOutcome retry attempt (.ok a) n) ∧
    (∀ e, Generic.execute retry attempt = .error e ↔
      e.op = "exec" ∧ RetryOutcome retry attempt (.error e.err) e.retryCount) ∧
    (∀ r, Generic.compactRetries retry attemptCompact = r ↔ ∃ n, RetryOutcome retry attemptCompact r n) := by
  refine ⟨retried_eq_ok _ retry attempt, retried_eq_error _ retry attempt, retried_eq_ok _ retry attempt,
    retried_eq_error _ retry attempt, fun r => ⟨fun h => ?_, fun ⟨n, ho⟩ => ?_⟩⟩
  · exact ⟨_, (retryLoop_eq_iff retry attemptCompact _ r _).mp (Prod.ext h rfl)⟩
  · rw [Generic.compactRetries, (retryLoop_eq_iff retry attemptCompact (.ok ()) r n).mpr ho]

end Retry

section Outcome

variable {ε : Type}

/-- The sql.Result execute returns: RowsAffected's count or error, and LastInsertId's id and error. -/
structure ExecResult (ε : Type) where
  rowsAffected : Except ε Int
  lastInsertId : Int × Option ε

/-- Create's, Update's and Delete's reading of execute's outcome, `(rev, ok, err)`: a failed
compare-and-swap inserts no row and is no error. -/
def insertOutcome : Except ε (ExecResult ε) → Int × Bool × Option ε
  | .error e => (0, false, some e)
  | .ok result =>
    match result.rowsAffected with
    | .error e => (0, false, some e)
    | .ok insertCount => if insertCount = 0 then (0, false, none) else (result.lastInsertId.1, true, result.lastInsertId.2)

/-- The deferred `if err != nil { if d.TranslateErr != nil { err = d.TranslateErr(err) } }`. -/
def translated (translateErr : Option (ε → ε)) : Int × Bool × Option ε → Int × Bool × Option ε
  | (rev, ok, err) => (rev, ok, err.map (translateErr.getD id))

/-- Generic.Create's outcome, given execute's. -/
def Generic.createOutcome (translateErr : Option (ε → ε)) (result : Except ε (ExecResult ε)) : Int × Bool × Option ε :=
  translated translateErr (insertOutcome result)

/-- Generic.Update's outcome, given execute's. -/
def Generic.updateOutcome (translateErr : Option (ε → ε)) (result : Except ε (ExecResult ε)) : Int × Bool × Option ε :=
  translated translateErr (insertOutcome result)

/-- Generic.Delete's outcome, given execute's: its defer translates no error. -/
def Generic.deleteOutcome (result : Except ε (ExecResult ε)) : Int × Bool × Option ε := insertOutcome result

/-- The sql.Result of a write's INSERT ... SELECT run on the table: one row or none, the engine's id. -/
def ExecResult.ofWrite (db : Db) (w : Write) (id : Int) (hid : db.seq < id) : ExecResult ε :=
  ⟨.ok (if (Generic.write db w id hid).2.2 then 1 else 0), (id, none)⟩

/-- Create, Update and Delete report what their statement did: Generic.write's `(rev, ok)`, or an error
with `ok = false` and revision 0 unless LastInsertId fails; only Create and Update translate it. -/
theorem insertOutcome_spec (translateErr : Option (ε → ε)) (result : Except ε (ExecResult ε)) (db : Db) (w : Write)
    (id : Int) (hid : db.seq < id) :
    Generic.deleteOutcome (.ok (ExecResult.ofWrite db w id hid : ExecResult ε)) =
        ((Generic.write db w id hid).2.1, (Generic.write db w id hid).2.2, none) ∧
      ((Generic.deleteOutcome result).2.1 = false → (Generic.deleteOutcome result).1 = 0) ∧
      ((Generic.deleteOutcome result).2.1 = true → (Generic.deleteOutcome result).2.2.isSome = true →
        ∃ r, result = .ok r ∧ r.lastInsertId.2.isSome = true) ∧
      Generic.createOutcome translateErr result = translated translateErr (Generic.deleteOutcome result) ∧
      Generic.updateOutcome translateErr result = translated translateErr (Generic.deleteOutcome result) := by
  refine ⟨?_, ?_, ?_, rfl, rfl⟩
  · rcases hy : w.select db.rows id with _ | y
    · simp [Generic.deleteOutcome, insertOutcome, ExecResult.ofWrite, Generic.write_of_select_none hid hy]
    · simp [Generic.deleteOutcome, insertOutcome, ExecResult.ofWrite, (Generic.write_of_select_some hid hy).2.2]
  all_goals
    rcases result with e | ⟨_ | n, rev, err⟩ <;> simp only [Generic.deleteOutcome, insertOutcome] <;>
      (try split_ifs) <;> simp

end Outcome

end K8sDqlite
