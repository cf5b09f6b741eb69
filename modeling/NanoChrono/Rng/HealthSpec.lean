import NanoChrono.Rng.Health

/-! # The health tests without their state

What the counters of the health tests stand for, over the whole sequence of samples, and that they are what they
stand for. -/

namespace NanoChrono.Rng

/-! ## The first of the largest -/

section Best

variable {n : Nat} {f : Fin n → Nat}

/-- `b` is the first place at which `f` is largest. -/
def IsBest (f : Fin n → Nat) (b : Fin n) : Prop := ∀ j, f j ≤ f b ∧ (j < b → f j < f b)

theorem IsBest.unique {b c : Fin n} (hb : IsBest f b) (hc : IsBest f c) : b = c := by
  rcases lt_trichotomy b c with hlt | heq | hgt
  · exact absurd ((hc b).2 hlt) (Nat.not_lt.2 (hb c).1)
  · exact heq
  · exact absurd ((hb c).2 hgt) (Nat.not_lt.2 (hc b).1)

/-- Raising one value by one makes its place the first of the largest, or leaves that where it was: it is enough
to compare the two. -/
theorem IsBest.raise {b : Fin n} (h : IsBest f b) (k : Fin n) {g : Fin n → Nat} (hk : g k = f k + 1)
    (hother : ∀ j, j ≠ k → g j = f j) : IsBest g (if g b < g k ∨ g k = g b ∧ k < b then k else b) := by
  intro j
  have hj := h j
  have hkb := h k
  by_cases hb : b = k
  · subst hb
    rw [if_neg (by omega)]
    by_cases hjb : j = b
    · subst hjb
      exact ⟨le_rfl, fun hlt => absurd hlt (lt_irrefl _)⟩
    · rw [hother j hjb, hk]
      exact ⟨by omega, fun _ => by omega⟩
  · have hgb := hother b hb
    split
    case isTrue hraise =>
      by_cases hjk : j = k
      · subst hjk
        exact ⟨le_rfl, fun hlt => absurd hlt (lt_irrefl _)⟩
      · rw [hother j hjk]
        refine ⟨by omega, fun hlt => ?_⟩
        rcases hraise with hmore | ⟨hsame, hbefore⟩
        · omega
        · have := hj.2 (hlt.trans hbefore)
          omega
    case isFalse hraise =>
      by_cases hjk : j = k
      · subst hjk
        exact ⟨by omega, fun hlt => by omega⟩
      · rw [hother j hjk, hgb]
        exact hj

/-- The first place at which `f` is largest. -/
def best (f : Fin 8 → Nat) : Fin 8 := (Fin.find? fun k => decide (∀ j, f j ≤ f k)).getD (Fin.last 7)

theorem isBest_best (f : Fin 8 → Nat) : IsBest f (best f) := by
  obtain ⟨k, hk⟩ := Finite.exists_max f
  cases hfind : Fin.find? fun k => decide (∀ j, f j ≤ f k) with
  | none =>
    have hnone := Fin.eq_false_of_find?_eq_none hfind k
    exact absurd hk (of_decide_eq_false hnone)
  | some b =>
    obtain ⟨hb, hbefore⟩ := Fin.find?_eq_some_iff.1 hfind
    rw [best, hfind, Option.getD_some]
    have hb := of_decide_eq_true hb
    refine fun j => ⟨hb j, fun hj => ?_⟩
    by_contra hle
    have hmax : ∀ i, f i ≤ f j := fun i => (hb i).trans (Nat.not_lt.1 hle)
    exact of_decide_eq_false (hbefore j hj) hmax

theorem IsBest.eq_best {f : Fin 8 → Nat} {b : Fin 8} (h : IsBest f b) : b = best f := h.unique (isBest_best f)

end Best

/-! ## The longest run -/

section Run

variable (p : Nat → Prop) [DecidablePred p]

/-- The longest run of places with a property that ends before `i`. -/
@[grind =] def longestRun : Nat → Nat
  | 0 => 0
  | i + 1 => if p i then longestRun i + 1 else 0

/-- The run has the property throughout, and the place before it has not. -/
theorem longestRun_spec (i : Nat) : longestRun p i ≤ i ∧ (∀ m, i - longestRun p i ≤ m → m < i → p m) ∧
    (longestRun p i < i → ¬p (i - longestRun p i - 1)) := by
  induction i with
  | zero => exact ⟨le_rfl, fun m _ hm => absurd hm (Nat.not_lt_zero m), fun h => absurd h (lt_irrefl 0)⟩
  | succ i ih =>
    obtain ⟨hle, hall, hbefore⟩ := ih
    rw [longestRun]
    split
    case isTrue hp =>
      refine ⟨by omega, fun m hlow hhigh => ?_, fun hlt => ?_⟩
      · rcases Nat.lt_succ_iff_lt_or_eq.1 hhigh with hm | rfl
        · exact hall m (by omega) hm
        · exact hp
      · rw [Nat.add_sub_add_right]
        exact hbefore (by omega)
    case isFalse hp => exact ⟨by omega, fun m hlow hhigh => by omega, fun _ => hp⟩

end Run

/-! ## What the tests are about

A sequence of samples, of which sample `i` has the delta `delta i` and is stuck or not as `stuck i` says. -/

section Definitions

variable (delta : Nat → Nat)

/-- How often the first sample of the window of sample `i` came in it, up to that sample. -/
def proportion (i : Nat) : Nat :=
  Nat.count (fun m => delta (i / APT_WINDOW * APT_WINDOW + m) = delta (i / APT_WINDOW * APT_WINDOW))
    (i % APT_WINDOW + 1)

/-- The samples of the lag predictor's window that sample `i` lies in. -/
def lagWindow (i : Nat) (m : Nat) : Nat := delta (i / LAG_WINDOW * LAG_WINDOW + m)

/-- How often the sample `k + 1` before a sample was that sample again, in the first `n` of a window. -/
def lagScore (x : Nat → Nat) (n : Nat) (k : Fin 8) : Nat :=
  Nat.count (fun m => LAG_HISTORY ≤ m ∧ x (m - k - 1) = x m) n

/-- The sample `m` of a window is the one that the lag predicts that predicted the most before it. -/
def Predicted (x : Nat → Nat) (m : Nat) : Prop := LAG_HISTORY ≤ m ∧ x (m - best (lagScore x m) - 1) = x m

instance (x : Nat → Nat) : DecidablePred (Predicted x) :=
  fun m => inferInstanceAs (Decidable (LAG_HISTORY ≤ m ∧ x (m - best (lagScore x m) - 1) = x m))

end Definitions

/-- The bits of a run of stuck samples. -/
def rctBits (osr : Osr) (run : Nat) : Nat :=
  if rctCutoff osr true ≤ run then FAIL_RCT_PERMANENT
  else if rctCutoff osr false ≤ run then FAIL_RCT
  else 0

/-- The bits of a count in an APT window. -/
def aptBits (osr : Osr) (count : Nat) : Nat :=
  if APT_PERMANENT.at osr ≤ count then FAIL_APT_PERMANENT
  else if APT_INTERMITTENT.at osr ≤ count then FAIL_APT
  else 0

/-- The bits of a correct prediction. -/
def lagBits (osr : Osr) (run hits : Nat) : Nat :=
  if LAG_LOCAL_PERMANENT.at osr ≤ run ∨ LAG_GLOBAL_PERMANENT.at osr ≤ hits then FAIL_LAG_PERMANENT
  else if LAG_LOCAL_INTERMITTENT.at osr ≤ run ∨ LAG_GLOBAL_INTERMITTENT.at osr ≤ hits then FAIL_LAG
  else 0

/-- The bits that sample `i` of a sequence raises. -/
def verdict (osr : Osr) (delta : Nat → Nat) (stuck : Nat → Bool) (i : Nat) : Nat :=
  let x := lagWindow delta i
  let n := i % LAG_WINDOW
  rctBits osr (longestRun (fun m => stuck m = true) (i + 1)) ||| aptBits osr (proportion delta i) |||
    if Predicted x n then lagBits osr (longestRun (Predicted x) (n + 1)) (Nat.count (Predicted x) (n + 1)) else 0

/-! ## The bits go by which deltas are equal -/

theorem count_congr {p q : Nat → Prop} [DecidablePred p] [DecidablePred q] {n : Nat} (h : ∀ m < n, (p m ↔ q m)) :
    Nat.count p n = Nat.count q n := by
  induction n with
  | zero => rfl
  | succ n ih =>
    rw [Nat.count_succ, Nat.count_succ, ih fun m hm => h m (by omega)]
    simp only [h n (Nat.lt_succ_self n)]

theorem longestRun_congr {p q : Nat → Prop} [DecidablePred p] [DecidablePred q] {n : Nat}
    (h : ∀ m < n, (p m ↔ q m)) : longestRun p n = longestRun q n := by
  induction n with
  | zero => rfl
  | succ n ih =>
    rw [longestRun, longestRun, ih fun m hm => h m (by omega)]
    simp only [h n (Nat.lt_succ_self n)]

theorem predicted_congr {x y : Nat → Nat} {n : Nat} (h : ∀ k ≤ n, ∀ l ≤ n, (x k = x l ↔ y k = y l)) :
    Predicted x n ↔ Predicted y n := by
  have hscores : lagScore x n = lagScore y n := by
    funext k
    exact count_congr fun m hm => and_congr_right fun _ => h _ (by omega) m (by omega)
  rw [Predicted, Predicted, hscores]
  exact and_congr_right fun _ => h _ (by omega) n le_rfl

/-- The bits that a sample raises are those of any deltas that are equal where its are. -/
theorem verdict_congr {osr : Osr} {delta delta' : Nat → Nat} {stuck : Nat → Bool} {i : Nat}
    (h : ∀ k ≤ i, ∀ l ≤ i, (delta k = delta l ↔ delta' k = delta' l)) :
    verdict osr delta stuck i = verdict osr delta' stuck i := by
  have happ : proportion delta i = proportion delta' i := by
    have hplace : i / APT_WINDOW * APT_WINDOW + i % APT_WINDOW = i := Nat.div_add_mod' i APT_WINDOW
    exact count_congr fun m hm => h _ (by omega) _ (by omega)
  have hplace : i / LAG_WINDOW * LAG_WINDOW + i % LAG_WINDOW = i := Nat.div_add_mod' i LAG_WINDOW
  have hpredicted : ∀ m < i % LAG_WINDOW + 1, (Predicted (lagWindow delta i) m ↔ Predicted (lagWindow delta' i) m) :=
    fun m hm => predicted_congr fun k hk l hl => h _ (by omega) _ (by omega)
  rw [verdict, verdict, happ]
  simp only [longestRun_congr hpredicted, count_congr hpredicted, hpredicted _ (Nat.lt_succ_self _)]

/-! ## The lag predictor -/

/-- The lag predictor after the first `n` samples of a window. -/
structure LagFollows (x : Nat → Nat) (n : Nat) (h : Health) : Prop where
  observed : h.lagObserved = n
  history : ∀ m < n, n ≤ m + 8 → h.lagHistory.get ⟨m % 8, Nat.mod_lt m (by decide)⟩ = x m
  scores : ∀ k, h.lagScores.get k = lagScore x n k
  best_eq : h.lagBest = best (lagScore x n)
  hits : h.lagHits = Nat.count (Predicted x) n
  run : h.lagRun = longestRun (Predicted x) n

theorem get_set {α : Type} (v : Vector α 8) (i : Nat) (hi : i < 8) (a : α) (j : Fin 8) :
    (v.set i a hi).get j = if i = j then a else v.get j := by
  change (v.set i a hi)[(j : Nat)] = if i = j then a else v[(j : Nat)]
  exact Vector.getElem_set hi j.isLt

section Lag

variable {x : Nat → Nat} {n : Nat} {h : Health}

/-- What is kept of the sample `k + 1` before the next. -/
theorem LagFollows.get_back (hfollows : LagFollows x n h) (hn : LAG_HISTORY ≤ n) (k : Fin 8) :
    h.lagHistory.get (Health.back h.lagObserved k) = x (n - k - 1) := by
  have hn : 8 ≤ n := hn
  rw [hfollows.observed]
  exact hfollows.history (n - k - 1) (by omega) (by omega)

/-- Scoring a lag raises its score if it predicted the sample, and finds the best anew. -/
theorem score_spec (delta : Nat) (k : Fin 8) (hbest : IsBest h.lagScores.get h.lagBest) :
    (∀ j, (h.score delta k).lagScores.get j = h.lagScores.get j +
      if j = k ∧ h.lagHistory.get (Health.back h.lagObserved k) = delta then 1 else 0) ∧
    IsBest (h.score delta k).lagScores.get (h.score delta k).lagBest ∧
    h.score delta k = { h with
      lagScores := (h.score delta k).lagScores
      lagBest := (h.score delta k).lagBest } := by
  by_cases hhit : h.lagHistory.get (Health.back h.lagObserved k) = delta
  · have hget (j : Fin 8) : (h.lagScores.set k (h.lagScores.get k + 1)).get j =
        if j = k then h.lagScores.get k + 1 else h.lagScores.get j := by
      rw [get_set]
      simp only [Fin.ext_iff, eq_comm]
    have hraise := hbest.raise k ((hget k).trans (if_pos rfl)) fun j hj => (hget j).trans (if_neg hj)
    have hscores (j : Fin 8) : (h.lagScores.set k (h.lagScores.get k + 1)).get j =
        h.lagScores.get j + if j = k ∧ h.lagHistory.get (Health.back h.lagObserved k) = delta then 1 else 0 := by
      rw [hget]
      by_cases hj : j = k
      · subst hj
        simp [hhit]
      · simp [hj]
    rw [Health.score, if_pos hhit]
    split at hraise
    case isTrue hcond =>
      simp only [if_pos hcond]
      exact ⟨hscores, hraise, trivial⟩
    case isFalse hcond =>
      simp only [if_neg hcond]
      exact ⟨hscores, hraise, trivial⟩
  · rw [Health.score, if_neg hhit]
    exact ⟨fun j => by simp [hhit], hbest, rfl⟩

/-- Scoring some lags on a sample raises the scores of those that predicted it. -/
theorem foldl_score (delta : Nat) (ks : List (Fin 8)) (hnodup : ks.Nodup) (hbest : IsBest h.lagScores.get h.lagBest) :
    (∀ j, (ks.foldl (Health.score delta) h).lagScores.get j = h.lagScores.get j +
      if j ∈ ks ∧ h.lagHistory.get (Health.back h.lagObserved j) = delta then 1 else 0) ∧
    IsBest (ks.foldl (Health.score delta) h).lagScores.get (ks.foldl (Health.score delta) h).lagBest ∧
    ks.foldl (Health.score delta) h = { h with
      lagScores := (ks.foldl (Health.score delta) h).lagScores
      lagBest := (ks.foldl (Health.score delta) h).lagBest } := by
  induction ks generalizing h with
  | nil => simp [hbest]
  | cons k ks ih =>
    obtain ⟨hk, hnodup⟩ := List.nodup_cons.1 hnodup
    obtain ⟨hscores, hbest', hsame⟩ := score_spec delta k hbest
    obtain ⟨hscores', hbest'', hsame'⟩ := ih hnodup hbest'
    rw [List.foldl_cons]
    have hhistory : (h.score delta k).lagHistory = h.lagHistory := by rw [hsame]
    have hobserved : (h.score delta k).lagObserved = h.lagObserved := by rw [hsame]
    refine ⟨fun j => ?_, hbest'', hsame'.trans ?_⟩
    · rw [hscores', hscores, hhistory, hobserved]
      by_cases hj : j = k
      · subst hj
        simp [hk]
      · simp [hj]
    · rw [hsame]

/-- A window begins with nothing in it. -/
theorem LagFollows.zero (hobserved : h.lagObserved = 0) (hscores : h.lagScores = .replicate 8 0)
    (hbest : h.lagBest = ⟨0, by decide⟩) (hhits : h.lagHits = 0) (hrun : h.lagRun = 0) : LagFollows x 0 h where
  observed := hobserved
  history := fun m hm => absurd hm (Nat.not_lt_zero m)
  scores := fun k => by
    rw [hscores]
    change (Vector.replicate 8 0)[(k : Nat)] = _
    rw [Vector.getElem_replicate]
    rfl
  best_eq := by
    rw [hbest]
    exact IsBest.eq_best fun j => ⟨le_rfl, fun hj => absurd hj (Nat.not_lt_zero j)⟩
  hits := hhits
  run := hrun

theorem longestRun_eq_zero {p : Nat → Prop} [DecidablePred p] {i : Nat} (hnone : ∀ m < i, ¬p m) :
    longestRun p i = 0 := by
  cases i with
  | zero => rfl
  | succ i => exact if_neg (hnone i (Nat.lt_succ_self i))

theorem lagScore_succ (x : Nat → Nat) (n : Nat) (k : Fin 8) :
    lagScore x (n + 1) k = lagScore x n k + if LAG_HISTORY ≤ n ∧ x (n - k - 1) = x n then 1 else 0 :=
  Nat.count_succ _ _

/-- The history after another sample. -/
theorem LagFollows.history_set (hfollows : LagFollows x n h) (m : Nat) (hm : m < n + 1) (hrecent : n + 1 ≤ m + 8) :
    (h.lagHistory.set (n % 8) (x n) (Nat.mod_lt n (by decide))).get ⟨m % 8, Nat.mod_lt m (by decide)⟩ = x m := by
  rw [get_set]
  dsimp only
  split
  case isTrue hslot =>
    have hsame : m = n := by omega
    rw [hsame]
  case isFalse hslot =>
    have hne : m ≠ n := fun heq => hslot (by rw [heq])
    exact hfollows.history m (by omega) (by omega)

/-- While the history fills, nothing is predicted. -/
theorem LagFollows.fill (hfollows : LagFollows x n h) (hn : n < LAG_HISTORY) :
    (h.lag (x n)).1 = 0 ∧ LagFollows x (n + 1) (h.lag (x n)).2 := by
  have hn : n < 8 := hn
  have hobserved := hfollows.observed
  have hnone : ∀ m < n + 1, ¬Predicted x m := by
    intro m hm hpredicted
    have : 8 ≤ m := hpredicted.1
    omega
  have hscore : lagScore x (n + 1) = lagScore x n := by
    funext k
    rw [lagScore_succ, if_neg fun hold => absurd (show 8 ≤ n from hold.1) (by omega), Nat.add_zero]
  rw [Health.lag, dif_pos (show h.lagObserved < LAG_HISTORY by rw [hobserved]; exact hn)]
  refine ⟨rfl, ?_⟩
  exact {
    observed := congrArg (· + 1) hobserved
    history := fun m hm hrecent => by
      have hset := hfollows.history_set m hm hrecent
      simp only [hobserved]
      simp only [Nat.mod_eq_of_lt hn] at hset
      exact hset
    scores := fun k => by rw [hscore]; exact hfollows.scores k
    best_eq := by rw [hscore]; exact hfollows.best_eq
    hits := by rw [Nat.count_succ, if_neg (hnone n (Nat.lt_succ_self n))]; exact hfollows.hits
    run := by
      rw [longestRun_eq_zero hnone]
      exact hfollows.run.trans (longestRun_eq_zero fun m hm => hnone m (by omega)) }

/-- A prediction is made by the best lag, and counted. -/
theorem LagFollows.predict (hfollows : LagFollows x n h) (hn : LAG_HISTORY ≤ n) :
    h.predict (x n) =
      (if Predicted x n then lagBits h.osr (longestRun (Predicted x) (n + 1)) (Nat.count (Predicted x) (n + 1)) else 0,
        { h with
          lagHits := Nat.count (Predicted x) (n + 1)
          lagRun := longestRun (Predicted x) (n + 1) }) := by
  have hhit : h.lagHistory.get (Health.back h.lagObserved h.lagBest) = x n ↔ Predicted x n := by
    rw [hfollows.get_back hn, hfollows.best_eq, Predicted]
    exact ⟨fun heq => ⟨hn, heq⟩, fun hpredicted => hpredicted.2⟩
  rw [Health.predict, Nat.count_succ, longestRun]
  by_cases hpredicted : Predicted x n
  · rw [if_pos (hhit.2 hpredicted)]
    simp only [if_pos hpredicted, hfollows.hits, hfollows.run, lagBits]
  · rw [if_neg fun hget => hpredicted (hhit.1 hget)]
    simp only [if_neg hpredicted, Nat.add_zero, ← hfollows.hits]

/-- What the predictor has when it has scored all lags on a sample. -/
structure Scored (x : Nat → Nat) (n : Nat) (h g : Health) : Prop where
  observed : g.lagObserved = n
  history : g.lagHistory = h.lagHistory
  scores : g.lagScores.get = lagScore x (n + 1)
  best_eq : g.lagBest = best (lagScore x (n + 1))
  hits : g.lagHits = Nat.count (Predicted x) (n + 1)
  run : g.lagRun = longestRun (Predicted x) (n + 1)

theorem LagFollows.scored (hfollows : LagFollows x n h) (hn : LAG_HISTORY ≤ n) :
    Scored x n h ((List.finRange 8).foldl (Health.score (x n)) (h.predict (x n)).2) := by
  have hpredict := congrArg Prod.snd (hfollows.predict hn)
  generalize h.predict (x n) = p at hpredict ⊢
  have hbest : IsBest p.2.lagScores.get p.2.lagBest := by
    have hscores : h.lagScores.get = lagScore x n := funext hfollows.scores
    rw [hpredict]
    dsimp only
    rw [hscores, hfollows.best_eq]
    exact isBest_best _
  have hfold := foldl_score (x n) (List.finRange 8) (List.nodup_finRange 8) hbest
  generalize (List.finRange 8).foldl (Health.score (x n)) p.2 = g at hfold ⊢
  obtain ⟨hscores, hbest', hsame⟩ := hfold
  have hscores' : g.lagScores.get = lagScore x (n + 1) := by
    funext k
    rw [hscores, lagScore_succ, hpredict]
    dsimp only
    rw [hfollows.get_back hn, hfollows.scores]
    simp only [List.mem_finRange, true_and, hn]
  exact {
    observed := (congrArg Health.lagObserved hsame).trans ((congrArg Health.lagObserved hpredict).trans hfollows.observed)
    history := (congrArg Health.lagHistory hsame).trans
      (show p.2.lagHistory = h.lagHistory by rw [hpredict])
    scores := hscores'
    best_eq := by
      rw [← hscores']
      exact hbest'.eq_best
    hits := (congrArg Health.lagHits hsame).trans (congrArg Health.lagHits hpredict)
    run := (congrArg Health.lagRun hsame).trans (congrArg Health.lagRun hpredict) }

/-- The sample is kept for the samples after it. -/
theorem Scored.keep {g : Health} (hscored : Scored x n h g) (hfollows : LagFollows x n h) :
    (n + 1 < LAG_WINDOW → LagFollows x (n + 1) (g.keep (x n))) ∧
      (n + 1 = LAG_WINDOW → ∀ y, LagFollows y 0 (g.keep (x n))) := by
  have hobserved := hscored.observed
  refine ⟨fun hlt => ?_, fun hend y => ?_⟩
  · rw [Health.keep, if_neg (by rw [hobserved]; exact Nat.not_le.2 hlt)]
    exact {
      observed := congrArg (· + 1) hobserved
      history := fun m hm hrecent => by
        simp only [hobserved, hscored.history]
        exact hfollows.history_set m hm hrecent
      scores := congrFun hscored.scores
      best_eq := hscored.best_eq
      hits := hscored.hits
      run := hscored.run }
  · rw [Health.keep, if_pos (by rw [hobserved]; exact hend.ge)]
    exact LagFollows.zero rfl rfl rfl rfl rfl

/-- One sample of a window. -/
theorem LagFollows.step (hfollows : LagFollows x n h) :
    (h.lag (x n)).1 = (if Predicted x n then
      lagBits h.osr (longestRun (Predicted x) (n + 1)) (Nat.count (Predicted x) (n + 1)) else 0) ∧
    (n + 1 < LAG_WINDOW → LagFollows x (n + 1) (h.lag (x n)).2) ∧
    (n + 1 = LAG_WINDOW → ∀ y, LagFollows y 0 (h.lag (x n)).2) := by
  by_cases hfill : n < LAG_HISTORY
  · obtain ⟨hbits, hnext⟩ := hfollows.fill hfill
    have hnone : ¬Predicted x n := fun hpredicted => absurd hpredicted.1 (Nat.not_le.2 hfill)
    have hlast : n + 1 ≠ LAG_WINDOW := fun hend =>
      absurd ((Nat.succ_le_of_lt hfill).trans_lt (by decide : LAG_HISTORY < LAG_WINDOW)) hend.not_lt
    exact ⟨by rw [hbits, if_neg hnone], fun _ => hnext, fun hend => absurd hend hlast⟩
  · have hhistory : LAG_HISTORY ≤ n := Nat.not_lt.1 hfill
    obtain ⟨hlt, hend⟩ := (hfollows.scored hhistory).keep hfollows
    rw [Health.lag, dif_neg (by rw [hfollows.observed]; exact hfill)]
    refine ⟨?_, ?_, ?_⟩
    · exact congrArg Prod.fst (hfollows.predict hhistory)
    · dsimp only
      exact hlt
    · dsimp only
      exact hend

end Lag

/-! ## All three tests -/

/-- The next place of a window, or the first of the next. -/
theorem window_succ {w : Nat} (hw : 0 < w) (i : Nat) :
    (i % w + 1 < w → (i + 1) / w = i / w ∧ (i + 1) % w = i % w + 1) ∧ (i % w + 1 = w → (i + 1) % w = 0) := by
  have hplace : i + 1 = i % w + 1 + w * (i / w) := by
    have := Nat.mod_add_div i w
    omega
  refine ⟨fun hlt => ?_, fun hend => ?_⟩
  · rw [hplace, Nat.add_mul_div_left _ _ hw, Nat.add_mul_mod_self_left, Nat.div_eq_of_lt hlt, Nat.mod_eq_of_lt hlt]
    exact ⟨Nat.zero_add _, rfl⟩
  · rw [hplace, Nat.add_mul_mod_self_left, hend, Nat.mod_self]

/-- The adaptive proportion test before sample `i`. -/
structure AptFollows (delta : Nat → Nat) (i : Nat) (h : Health) : Prop where
  seen : h.aptSeen = i % APT_WINDOW
  count_le : h.aptCount ≤ APT_WINDOW
  reference : 0 < i % APT_WINDOW → h.aptReference = delta (i / APT_WINDOW * APT_WINDOW)
  count : 0 < i % APT_WINDOW → h.aptCount =
    Nat.count (fun m => delta (i / APT_WINDOW * APT_WINDOW + m) = delta (i / APT_WINDOW * APT_WINDOW)) (i % APT_WINDOW)

theorem aptBits_one (osr : Osr) : aptBits osr 1 = 0 := by
  have hall : ∀ k : Fin 20, ¬APT_PERMANENT.get k ≤ 1 ∧ ¬APT_INTERMITTENT.get k ≤ 1 := by decide
  obtain ⟨hpermanent, hintermittent⟩ := hall ⟨osr.val - 1, Nat.sub_one_lt_of_le osr.min_le osr.le_max⟩
  exact (if_neg hpermanent).trans (if_neg hintermittent)

theorem AptFollows.step {delta : Nat → Nat} {i : Nat} {h : Health} (hfollows : AptFollows delta i h) :
    (h.apt (delta i)).1 = aptBits h.osr (proportion delta i) ∧ AptFollows delta (i + 1) (h.apt (delta i)).2 := by
  obtain ⟨hnext, hlast⟩ := window_succ (by decide : 0 < APT_WINDOW) i
  have hplace : i / APT_WINDOW * APT_WINDOW + i % APT_WINDOW = i := Nat.div_add_mod' i APT_WINDOW
  by_cases hfirst : h.aptSeen = 0
  · -- The first of a window is its reference.
    have hmod : i % APT_WINDOW = 0 := hfollows.seen.symm.trans hfirst
    have hbase : i / APT_WINDOW * APT_WINDOW = i := by omega
    obtain ⟨hdiv, hsucc⟩ := hnext (by rw [hmod]; decide)
    have hcount : Nat.count (fun m => delta (i + m) = delta i) 1 = 1 := by
      rw [Nat.count_succ, Nat.count_zero, Nat.add_zero, if_pos rfl]
    rw [Health.apt, if_pos hfirst]
    refine ⟨?_, ?_⟩
    · rw [proportion, hbase, hmod, Nat.zero_add, hcount, aptBits_one]
    · exact {
        seen := by rw [hsucc, hmod]
        count_le := (by decide : 1 ≤ APT_WINDOW)
        reference := fun _ => by rw [hdiv, hbase]
        count := fun _ => by rw [hdiv, hbase, hsucc, hmod, Nat.zero_add, hcount] }
  · have hpos : 0 < i % APT_WINDOW := Nat.pos_of_ne_zero (hfollows.seen ▸ hfirst)
    have hreference := hfollows.reference hpos
    have hcount : (if delta i = h.aptReference then h.aptCount + 1 else h.aptCount) = proportion delta i := by
      rw [proportion, Nat.count_succ, hplace, ← hfollows.count hpos, hreference]
      split <;> rfl
    have hle : proportion delta i ≤ APT_WINDOW :=
      (Nat.count_le ..).trans (Nat.succ_le_of_lt (Nat.mod_lt i (by decide)))
    rw [Health.apt, if_neg hfirst]
    simp only [hcount, hfollows.seen]
    refine ⟨rfl, ?_⟩
    by_cases hend : i % APT_WINDOW + 1 = APT_WINDOW
    · have hzero := hlast hend
      exact {
        seen := by rw [hzero]; exact if_pos hend.ge
        count_le := hle
        reference := fun hold => absurd hold (by rw [hzero]; decide)
        count := fun hold => absurd hold (by rw [hzero]; decide) }
    · have hlt : i % APT_WINDOW + 1 < APT_WINDOW :=
        Nat.lt_of_le_of_ne (Nat.succ_le_of_lt (Nat.mod_lt i (by decide))) hend
      obtain ⟨hdiv, hsucc⟩ := hnext hlt
      exact {
        seen := by rw [hsucc]; exact if_neg (Nat.not_le.2 hlt)
        count_le := hle
        reference := fun _ => by rw [hdiv]; exact hreference
        count := fun _ => by rw [hdiv, hsucc]; rfl }

/-- The tests before sample `i` of a sequence. -/
structure Follows (delta : Nat → Nat) (stuck : Nat → Bool) (i : Nat) (h : Health) : Prop where
  rct : h.rctRun = min (longestRun (fun m => stuck m = true) i) Health.COUNT_MAX
  apt : AptFollows delta i h
  lag : LagFollows (lagWindow delta i) (i % LAG_WINDOW) h

/-- The repetition count's part, which saturates far above every cutoff. -/
theorem rct_step {stuck : Nat → Bool} {i : Nat} {h : Health}
    (hrun : h.rctRun = min (longestRun (fun m => stuck m = true) i) Health.COUNT_MAX) :
    (h.rct (stuck i)).1 = rctBits h.osr (longestRun (fun m => stuck m = true) (i + 1)) ∧
      (h.rct (stuck i)).2.rctRun = min (longestRun (fun m => stuck m = true) (i + 1)) Health.COUNT_MAX := by
  have hcutoff (permanent : Bool) : 0 < rctCutoff h.osr permanent ∧ rctCutoff h.osr permanent ≤ Health.COUNT_MAX := by
    have hmin : 1 ≤ h.osr.val := h.osr.min_le
    have hmax : h.osr.val ≤ 20 := h.osr.le_max
    rw [rctCutoff, clampOsr_val]
    cases permanent with
    | false => exact ⟨by simp only [Bool.false_eq_true, if_false]; omega,
        (Nat.mul_le_mul_left _ hmax).trans (by decide)⟩
    | true => exact ⟨by simp only [if_true]; omega, (Nat.mul_le_mul_left _ hmax).trans (by decide)⟩
  rw [longestRun, Health.rct]
  by_cases hstuck : stuck i = true
  · rw [if_neg (not_not.2 hstuck), if_pos hstuck]
    have hsum : min (h.rctRun + 1) Health.COUNT_MAX =
        min (longestRun (fun m => stuck m = true) i + 1) Health.COUNT_MAX := by
      rw [hrun]
      omega
    have hge (permanent : Bool) : rctCutoff h.osr permanent ≤ min (h.rctRun + 1) Health.COUNT_MAX ↔
        rctCutoff h.osr permanent ≤ longestRun (fun m => stuck m = true) i + 1 := by
      have := (hcutoff permanent).2
      rw [hsum]
      omega
    refine ⟨?_, hsum⟩
    simp only [rctBits, hge]
  · rw [if_pos hstuck, if_neg hstuck]
    refine ⟨?_, rfl⟩
    rw [rctBits, if_neg (Nat.not_le.2 (hcutoff true).1), if_neg (Nat.not_le.2 (hcutoff false).1)]

namespace LagOnly

/-- The proportion test goes by what the lag predictor leaves alone. -/
theorem aptFollows {h g : Health} (hsame : LagOnly h g) {delta : Nat → Nat} {i : Nat} (hfollows : AptFollows delta i h) :
    AptFollows delta i g :=
  ⟨hsame.aptSeen.trans hfollows.seen, hsame.aptCount.trans_le hfollows.count_le,
    fun hpos => hsame.aptReference.trans (hfollows.reference hpos),
    fun hpos => hsame.aptCount.trans (hfollows.count hpos)⟩

end LagOnly

theorem LagFollows.rct {x : Nat → Nat} {n : Nat} {h : Health} (hfollows : LagFollows x n h) (stuck : Bool) :
    LagFollows x n (h.rct stuck).2 := by
  obtain ⟨hobserved, hhistory, hscores, hbest, hhits, hrun⟩ := hfollows
  unfold Health.rct
  split <;> exact ⟨hobserved, hhistory, hscores, hbest, hhits, hrun⟩

theorem LagFollows.apt {x : Nat → Nat} {n : Nat} {h : Health} (hfollows : LagFollows x n h) (delta : Nat) :
    LagFollows x n (h.apt delta).2 := by
  obtain ⟨hobserved, hhistory, hscores, hbest, hhits, hrun⟩ := hfollows
  unfold Health.apt
  split <;> exact ⟨hobserved, hhistory, hscores, hbest, hhits, hrun⟩

theorem AptFollows.rct {delta : Nat → Nat} {i : Nat} {h : Health} (hfollows : AptFollows delta i h) (stuck : Bool) :
    AptFollows delta i (h.rct stuck).2 := by
  obtain ⟨hseen, hle, hreference, hcount⟩ := hfollows
  unfold Health.rct
  split <;> exact ⟨hseen, hle, hreference, hcount⟩

/-- One sample: the bits it raises, and the tests before the next. -/
theorem Follows.step {delta : Nat → Nat} {stuck : Nat → Bool} {i : Nat} {h : Health} (hfollows : Follows delta stuck i h) :
    (h.observe (delta i) (stuck i)).1 = verdict h.osr delta stuck i ∧
      Follows delta stuck (i + 1) (h.observe (delta i) (stuck i)).2 := by
  obtain ⟨hrctBits, hrct⟩ := rct_step hfollows.rct
  obtain ⟨haptBits, hapt⟩ := (hfollows.apt.rct (stuck i)).step
  have hlag := (hfollows.lag.rct (stuck i)).apt (delta i)
  have hsample : lagWindow delta i (i % LAG_WINDOW) = delta i := by
    rw [lagWindow, Nat.div_add_mod']
  obtain ⟨hlagBits, hwithin, hend⟩ := hlag.step
  rw [hsample] at hlagBits hwithin hend
  have hsame := LagOnly.lag (delta i) ((h.rct (stuck i)).2.apt (delta i)).2
  rw [Health.observe]
  dsimp only
  refine ⟨?_, ?_⟩
  · rw [hrctBits, haptBits, hlagBits, rct_osr, (apt_osr _ _).1, rct_osr]
    rfl
  · refine ⟨?_, hsame.aptFollows hapt, ?_⟩
    · rw [hsame.rctRun, (apt_osr _ _).2, hrct]
    · obtain ⟨hnext, hlast⟩ := window_succ (by decide : 0 < LAG_WINDOW) i
      by_cases hfull : i % LAG_WINDOW + 1 = LAG_WINDOW
      · rw [hlast hfull]
        exact hend hfull _
      · have hlt : i % LAG_WINDOW + 1 < LAG_WINDOW :=
          Nat.lt_of_le_of_ne (Nat.succ_le_of_lt (Nat.mod_lt i (by decide))) hfull
        obtain ⟨hdiv, hsucc⟩ := hnext hlt
        have hwindow : lagWindow delta (i + 1) = lagWindow delta i := by
          funext m
          rw [lagWindow, lagWindow, hdiv]
        rw [hsucc, hwindow]
        exact hwithin hlt

/-! ## Sequences with retunes between the samples -/

section Sequence

variable (osr : Nat) (retunes : Nat → List Nat) (delta : Nat → Nat) (stuck : Nat → Bool)

/-- The rate at sample `i`, when it was changed to `retunes i` before it. -/
def rateAt : Nat → Osr
  | 0 => (retunes 0).foldl (fun _ osr => clampOsr osr) (clampOsr osr)
  | i + 1 => (retunes (i + 1)).foldl (fun _ osr => clampOsr osr) (rateAt i)

/-- The tests before sample `i`. -/
def healthAt : Nat → Health
  | 0 => (retunes 0).foldl Health.retune (Health.new osr)
  | i + 1 => (retunes (i + 1)).foldl Health.retune ((healthAt i).observe (delta i) (stuck i)).2

end Sequence

/-- No counter is near the end of its 32 bits. -/
structure Health.Counted (h : Health) : Prop where
  rctRun : h.rctRun ≤ COUNT_MAX
  aptCount : h.aptCount ≤ APT_WINDOW
  aptSeen : h.aptSeen < APT_WINDOW
  lagScores : ∀ k, h.lagScores.get k ≤ LAG_WINDOW
  lagObserved : h.lagObserved < LAG_WINDOW
  lagHits : h.lagHits ≤ LAG_WINDOW
  lagRun : h.lagRun ≤ LAG_WINDOW

section Sequence

variable {delta : Nat → Nat} {stuck : Nat → Bool} {i : Nat} {h : Health}

/-- A change of the rate keeps every counter. -/
theorem Follows.retunes (hfollows : Follows delta stuck i h) (rates : List Nat) :
    Follows delta stuck i (rates.foldl Health.retune h) := by
  induction rates generalizing h with
  | nil => exact hfollows
  | cons osr rates ih =>
    obtain ⟨hrct, ⟨hseen, hle, hreference, hcount⟩, ⟨hobserved, hhistory, hscores, hbest, hhits, hrun⟩⟩ := hfollows
    exact ih ⟨hrct, ⟨hseen, hle, hreference, hcount⟩, ⟨hobserved, hhistory, hscores, hbest, hhits, hrun⟩⟩

theorem foldl_retune_osr (h : Health) (rates : List Nat) :
    (rates.foldl Health.retune h).osr = rates.foldl (fun _ osr => clampOsr osr) h.osr := by
  induction rates generalizing h with
  | nil => rfl
  | cons osr rates ih => exact ih _

theorem follows_healthAt (osr : Nat) (retunes : Nat → List Nat) (delta : Nat → Nat) (stuck : Nat → Bool) (i : Nat) :
    Follows delta stuck i (healthAt osr retunes delta stuck i) ∧
      (healthAt osr retunes delta stuck i).osr = rateAt osr retunes i := by
  induction i with
  | zero =>
    refine ⟨Follows.retunes ?_ _, foldl_retune_osr _ _⟩
    exact ⟨rfl, ⟨rfl, Nat.zero_le _, fun h => absurd h (by decide), fun h => absurd h (by decide)⟩,
      LagFollows.zero rfl rfl rfl rfl rfl⟩
  | succ i ih =>
    refine ⟨ih.1.step.2.retunes _, (foldl_retune_osr _ _).trans ?_⟩
    rw [observe_osr, ih.2]
    rfl

theorem Follows.counted (hfollows : Follows delta stuck i h) : h.Counted where
  rctRun := hfollows.rct.trans_le (Nat.min_le_right _ _)
  aptCount := hfollows.apt.count_le
  aptSeen := hfollows.apt.seen.trans_lt (Nat.mod_lt i (by decide))
  lagScores := fun k => (hfollows.lag.scores k).trans_le
    ((Nat.count_le ..).trans (Nat.mod_lt i (by decide)).le)
  lagObserved := hfollows.lag.observed.trans_lt (Nat.mod_lt i (by decide))
  lagHits := hfollows.lag.hits.trans_le ((Nat.count_le ..).trans (Nat.mod_lt i (by decide)).le)
  lagRun := hfollows.lag.run.trans_le ((longestRun_spec _ _).1.trans (Nat.mod_lt i (by decide)).le)

/-- At every sample, whatever the rate was changed to before it, the tests raise the bits of their definitions,
the lag predictor goes by the shortest of the lags that predicted the most, and no counter is out of range. -/
theorem observe_eq_verdict (osr : Nat) (retunes : Nat → List Nat) (delta : Nat → Nat) (stuck : Nat → Bool) (i : Nat) :
    ((healthAt osr retunes delta stuck i).observe (delta i) (stuck i)).1 =
      verdict (rateAt osr retunes i) delta stuck i ∧
    IsBest (lagScore (lagWindow delta i) (i % LAG_WINDOW)) (healthAt osr retunes delta stuck i).lagBest ∧
    (healthAt osr retunes delta stuck i).Counted := by
  obtain ⟨hfollows, hosr⟩ := follows_healthAt osr retunes delta stuck i
  refine ⟨?_, ?_, hfollows.counted⟩
  · rw [← hosr]
    exact hfollows.step.1
  · rw [hfollows.lag.best_eq]
    exact isBest_best _

end Sequence

end NanoChrono.Rng
