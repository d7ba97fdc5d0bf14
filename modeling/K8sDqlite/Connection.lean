import K8sDqlite.Key

namespace K8sDqlite

section Open

variable {ε DB : Type}

/-- openAndTest: sql.Open's outcome, then three Pings of the handle; the first that fails closes it,
and its error is returned. -/
def openAndTest (opened : Except ε DB) (ping : Nat → Option ε) : Except ε DB :=
  match opened with
  | .error e => .error e
  | .ok db =>
    match (List.range 3).findSome? ping with
    | some e => .error e
    | none => .ok db

/-- Open's loop, `for i := 0; i < 300; i++`, from pass `i` with `fuel` passes left: it breaks at the
first attempt that opens a handle; after a failed one, Open returns ctx.Err() when the context is
done before a second passes (`cancelled i`). Returns the handle and error the loop leaves. -/
def openLoop (attempt : Nat → Except ε DB) (cancelled : Nat → Option ε) (db : Option DB) (err : Option ε) (i : Nat) :
    Nat → Except ε (Option DB × Option ε)
  | 0 => .ok (db, err)
  | fuel + 1 =>
    match attempt i with
    | .ok d => .ok (some d, none)
    | .error e =>
      match cancelled i with
      | some c => .error c
      | none => openLoop attempt cancelled none (some e) (i + 1) fuel

structure ConnectionPoolConfig where
  maxIdle : Int
  maxOpen : Int
  maxLifetime : Int
  maxIdleTime : Int
  deriving DecidableEq, Repr

def defaultMaxIdleConns : Int := 2

/-- What a Go call does: return a value, or panic. -/
inductive Outcome (α : Type) where
  | returns (a : α)
  | panics
  deriving DecidableEq, Repr

/-- configureConnectionPooling's rewrite of the caller's configuration: a negative MaxIdle becomes 0
and a zero one defaultMaxIdleConns, as database/sql reads them. -/
def rewriteMaxIdle (cfg : ConnectionPoolConfig) : ConnectionPoolConfig :=
  if cfg.maxIdle < 0 then { cfg with maxIdle := 0 }
  else if cfg.maxIdle = 0 then { cfg with maxIdle := defaultMaxIdleConns } else cfg

/-- The rewrite keeps the other limits and leaves a MaxIdle database/sql reads as it read the given
one; a negative MaxIdle, rewritten to 0, reads as defaultMaxIdleConns the next time. -/
theorem rewriteMaxIdle_spec (cfg : ConnectionPoolConfig) :
    0 ≤ (rewriteMaxIdle cfg).maxIdle ∧ (0 < cfg.maxIdle → (rewriteMaxIdle cfg).maxIdle = cfg.maxIdle) ∧
      (rewriteMaxIdle cfg).maxOpen = cfg.maxOpen ∧ (rewriteMaxIdle cfg).maxLifetime = cfg.maxLifetime ∧
      (rewriteMaxIdle cfg).maxIdleTime = cfg.maxIdleTime ∧
      (rewriteMaxIdle (rewriteMaxIdle cfg) = rewriteMaxIdle cfg ↔ 0 ≤ cfg.maxIdle) := by
  rcases lt_trichotomy cfg.maxIdle 0 with h | h | h
  · have hc : rewriteMaxIdle cfg = { cfg with maxIdle := 0 } := if_pos h
    rw [hc]
    refine ⟨le_rfl, fun h' => absurd h' (by omega), rfl, rfl, rfl, ?_⟩
    simp [rewriteMaxIdle, defaultMaxIdleConns]
    omega
  · have hc : rewriteMaxIdle cfg = { cfg with maxIdle := defaultMaxIdleConns } := by
      rw [rewriteMaxIdle, if_neg (by omega), if_pos h]
    rw [hc]
    refine ⟨show (0 : Int) ≤ 2 by decide, fun h' => absurd h' (by omega), rfl, rfl, rfl, ?_⟩
    simp [rewriteMaxIdle, defaultMaxIdleConns, h]
  · have hc : rewriteMaxIdle cfg = cfg := by
      rw [rewriteMaxIdle, if_neg (by omega), if_neg (by omega)]
    rw [hc, hc]
    exact ⟨h.le, fun _ => rfl, rfl, rfl, rfl, by simp [h.le]⟩

/-- configureConnectionPooling: the rewrite, then db.SetMaxIdleConns and the other setters, which
panic on a nil handle. Returns the handle with the limits it now has. -/
def configureConnectionPooling (cfg : ConnectionPoolConfig) : Option DB → Outcome (DB × ConnectionPoolConfig)
  | none => .panics
  | some db => .returns (db, rewriteMaxIdle cfg)

/-- Generic.Open up to the statements it prepares: ctx.Err() when it gives up, else the configured
handle and the error Open returns with its Generic. Attempt `i` opens with `opened i`, pings with `ping i`. -/
def Generic.open (cfg : ConnectionPoolConfig) (opened : Nat → Except ε DB) (ping : Nat → Nat → Option ε)
    (cancelled : Nat → Option ε) : Outcome (Except ε (DB × ConnectionPoolConfig × Option ε)) :=
  match openLoop (fun i => openAndTest (opened i) (ping i)) cancelled none none 0 300 with
  | .error c => .returns (.error c)
  | .ok (db, err) =>
    match configureConnectionPooling cfg db with
    | .returns (d, cfg') => .returns (.ok (d, cfg', err))
    | .panics => .panics

theorem openLoop_spec (attempt : Nat → Except ε DB) (cancelled : Nat → Option ε) (fuel : Nat) :
    ∀ (err : Option ε) (i : Nat),
      (∃ k, i ≤ k ∧ k ≤ i + fuel ∧ (∀ j, i ≤ j → j < k → (attempt j).toBool = false ∧ cancelled j = none) ∧
        ((∃ db, attempt k = .ok db ∧ openLoop attempt cancelled none err i (fuel + 1) = .ok (some db, none)) ∨
          (∃ e c, attempt k = .error e ∧ cancelled k = some c ∧
            openLoop attempt cancelled none err i (fuel + 1) = .error c))) ∨
      ((∀ j, i ≤ j → j ≤ i + fuel → (attempt j).toBool = false ∧ cancelled j = none) ∧
        ∃ e, attempt (i + fuel) = .error e ∧ openLoop attempt cancelled none err i (fuel + 1) = .ok (none, some e)) := by
  induction fuel with
  | zero =>
    intro err i
    rcases ha : attempt i with e | d
    · rcases hc : cancelled i with _ | c
      · refine .inr ⟨fun j h1 h2 => ?_, e, ha, by simp [openLoop, ha, hc]⟩
        obtain rfl : j = i := by omega
        simp [ha, hc, Except.toBool]
      · exact .inl ⟨i, le_rfl, by omega, fun j h1 h2 => by omega, .inr ⟨e, c, ha, hc, by simp [openLoop, ha, hc]⟩⟩
    · exact .inl ⟨i, le_rfl, by omega, fun j h1 h2 => by omega, .inl ⟨d, ha, by simp [openLoop, ha]⟩⟩
  | succ fuel ih =>
    intro err i
    rcases ha : attempt i with e | d
    · rcases hc : cancelled i with _ | c
      · have hstep : openLoop attempt cancelled none err i (fuel + 1 + 1) =
            openLoop attempt cancelled none (some e) (i + 1) (fuel + 1) := by simp [openLoop, ha, hc]
        have hi : (attempt i).toBool = false ∧ cancelled i = none := by simp [ha, hc, Except.toBool]
        rw [hstep]
        rcases ih (some e) (i + 1) with ⟨k, h1, h2, hpre, hk⟩ | ⟨hall, e', he', hres⟩
        · refine .inl ⟨k, by omega, by omega, fun j hj1 hj2 => ?_, hk⟩
          rcases Nat.eq_or_lt_of_le hj1 with rfl | hj1
          exacts [hi, hpre j hj1 hj2]
        · refine .inr ⟨fun j hj1 hj2 => ?_, e', by rwa [show i + (fuel + 1) = i + 1 + fuel by omega], hres⟩
          rcases Nat.eq_or_lt_of_le hj1 with rfl | hj1
          exacts [hi, hall j hj1 (by omega)]
      · exact .inl ⟨i, le_rfl, by omega, fun j h1 h2 => by omega, .inr ⟨e, c, ha, hc, by simp [openLoop, ha, hc]⟩⟩
    · exact .inl ⟨i, le_rfl, by omega, fun j h1 h2 => by omega, .inl ⟨d, ha, by simp [openLoop, ha]⟩⟩

/-- Open's outcomes: a handle opened within 300 attempts is configured and returned, a cancelled
wait returns ctx.Err(), and 300 failures end in configureConnectionPooling's panic on the nil handle. -/
theorem open_outcome (cfg : ConnectionPoolConfig) (opened : Nat → Except ε DB) (ping : Nat → Nat → Option ε)
    (cancelled : Nat → Option ε) :
    (∃ i < 300, (∀ j < i, (openAndTest (opened j) (ping j)).toBool = false ∧ cancelled j = none) ∧
      ((∃ db, openAndTest (opened i) (ping i) = .ok db ∧
          Generic.open cfg opened ping cancelled = .returns (.ok (db, rewriteMaxIdle cfg, none))) ∨
        (∃ e c, openAndTest (opened i) (ping i) = .error e ∧ cancelled i = some c ∧
          Generic.open cfg opened ping cancelled = .returns (.error c)))) ∨
    ((∀ j < 300, (openAndTest (opened j) (ping j)).toBool = false ∧ cancelled j = none) ∧
      Generic.open cfg opened ping cancelled = .panics) := by
  unfold Generic.open
  rcases openLoop_spec (fun i => openAndTest (opened i) (ping i)) cancelled 299 none 0 with
    ⟨k, -, hk, hpre, ⟨db, ha, hres⟩ | ⟨e, c, ha, hc, hres⟩⟩ | ⟨hall, _, -, hres⟩
  · exact .inl ⟨k, by omega, fun j hj => hpre j (Nat.zero_le _) hj, .inl ⟨db, ha, by rw [hres]; rfl⟩⟩
  · exact .inl ⟨k, by omega, fun j hj => hpre j (Nat.zero_le _) hj, .inr ⟨e, c, ha, hc, by rw [hres]⟩⟩
  · exact .inr ⟨fun j hj => hall j (Nat.zero_le _) (by omega), by rw [hres]; rfl⟩

end Open

/-- time.Second, time.Duration counting nanoseconds. -/
def second : Int := 1000000000

def minute : Int := 60 * second

/-- The interval getters: the configured duration when it passes the getter's check, else its
default. -/
def durationOr (valid : Int → Bool) (default v : Int) : Int := if valid v then v else default

def Generic.getCompactInterval (compactInterval : Int) : Int :=
  durationOr (fun v => 0 < v) (5 * minute) compactInterval

def Generic.getWatchQueryTimeout (watchQueryTimeout : Int) : Int :=
  durationOr (fun v => 5 * second ≤ v) (20 * second) watchQueryTimeout

def Generic.getPollInterval (pollInterval : Int) : Int :=
  durationOr (fun v => 0 < v) second pollInterval

theorem durationOr_spec {valid : Int → Bool} {default : Int} (h : valid default = true) (v : Int) :
    valid (durationOr valid default v) = true ∧ durationOr valid default (durationOr valid default v) = durationOr valid default v := by
  have hv : valid (durationOr valid default v) = true := by
    unfold durationOr
    split_ifs with hv
    exacts [hv, h]
  exact ⟨hv, if_pos hv⟩

/-- Every default passes its getter's check, so every interval a getter returns does, and a getter
returns it as it is. -/
theorem interval_getters_valid (v : Int) :
    0 < Generic.getCompactInterval v ∧ 5 * second ≤ Generic.getWatchQueryTimeout v ∧ 0 < Generic.getPollInterval v ∧
      Generic.getCompactInterval (Generic.getCompactInterval v) = Generic.getCompactInterval v ∧
      Generic.getWatchQueryTimeout (Generic.getWatchQueryTimeout v) = Generic.getWatchQueryTimeout v ∧
      Generic.getPollInterval (Generic.getPollInterval v) = Generic.getPollInterval v := by
  obtain ⟨hc, hc'⟩ := @durationOr_spec (fun v => 0 < v) (5 * minute) (by decide) v
  obtain ⟨hw, hw'⟩ := @durationOr_spec (fun v => 5 * second ≤ v) (20 * second) (by decide) v
  obtain ⟨hp, hp'⟩ := @durationOr_spec (fun v => 0 < v) second (by decide) v
  exact ⟨of_decide_eq_true hc, of_decide_eq_true hw, of_decide_eq_true hp, hc', hw', hp'⟩

end K8sDqlite
