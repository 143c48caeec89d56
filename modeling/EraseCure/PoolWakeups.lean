import EraseCure.PoolTasks

/-!
# Who waits in a worker pool

While a worker waits for work, every queued task has a worker that is about to
take it. While a submitter waits for room in a pool that is not shut down, every
free slot has a submitter that is about to fill it. Both hold because each event
signals once and frees one task or one slot.
-/

set_option autoImplicit false

namespace EraseCure.PoolWakeups
open EraseCure.Monitors EraseCure.WorkerPools EraseCure.PoolTasks

variable {ι τ : Type*}

abbrev PoolStatus (ι τ : Type*) := Status PoolCond (PoolLoc ι τ)

def WaitFact : PoolStatus ι τ → Prop
  | .blocked .notEmpty l => l = .workerLoop
  | .blocked .notFull l => ∃ t, l = .submit (some t)
  | .blocked .isIdle l => ∃ before, l = .waitIdleLoop before
  | .ready _ => True

def atLoop : PoolStatus ι τ → Bool
  | .ready .workerLoop => true
  | _ => false

def atSubmit : PoolStatus ι τ → Bool
  | .ready (.submit (some _)) => true
  | _ => false

section Signals
variable [Fintype ι]

structure SignalInvariant (s : PoolState ι τ) (st : ι → PoolStatus ι τ) : Prop where
  waits : ∀ j, WaitFact (st j)
  open_wait : 0 < tally (waitsOn .notEmpty) st → s.shutdown = false
  work : 0 < tally (waitsOn .notEmpty) st → s.count ≤ tally atLoop st
  room : 0 < tally (waitsOn .notFull) st → s.shutdown = false →
    s.queueSize ≤ s.count+tally atSubmit st

variable [DecidableEq ι] (st st' : ι → PoolStatus ι τ) (woken : Option ι)

theorem notify_notEmpty (hw : ∀ j, WaitFact (st j))
    (h : notify (.one .notEmpty) woken st = some st') :
    (tally (waitsOn .notEmpty) st = 0 ∧ st' = st) ∨
      (tally (waitsOn .notEmpty) st'+1 = tally (waitsOn .notEmpty) st ∧
        tally atLoop st' = tally atLoop st+1 ∧
        tally (waitsOn .notFull) st' = tally (waitsOn .notFull) st ∧
        tally atSubmit st' = tally atSubmit st) := by
  rcases notify_one .notEmpty woken st st' h with hnone | ⟨j, l, hj, rfl⟩
  · exact Or.inl hnone
  · have hl := hw j
    rw [hj] at hl
    cases hl
    exact Or.inr ⟨tally_loss _ _ _ _ (by rw [hj]; rfl) rfl,
      tally_gain _ _ _ _ (by rw [hj]; rfl) rfl, tally_same _ _ _ _ (by rw [hj]; rfl),
      tally_same _ _ _ _ (by rw [hj]; rfl)⟩

theorem notify_notFull (hw : ∀ j, WaitFact (st j))
    (h : notify (.one .notFull) woken st = some st') :
    (tally (waitsOn .notFull) st = 0 ∧ st' = st) ∨
      (tally (waitsOn .notFull) st'+1 = tally (waitsOn .notFull) st ∧
        tally atSubmit st' = tally atSubmit st+1 ∧
        tally (waitsOn .notEmpty) st' = tally (waitsOn .notEmpty) st ∧
        tally atLoop st' = tally atLoop st) := by
  rcases notify_one .notFull woken st st' h with hnone | ⟨j, l, hj, rfl⟩
  · exact Or.inl hnone
  · have hl := hw j
    rw [hj] at hl
    obtain ⟨t, rfl⟩ := hl
    exact Or.inr ⟨tally_loss _ _ _ _ (by rw [hj]; rfl) rfl,
      tally_gain _ _ _ _ (by rw [hj]; rfl) rfl, tally_same _ _ _ _ (by rw [hj]; rfl),
      tally_same _ _ _ _ (by rw [hj]; rfl)⟩

theorem notify_isIdle (hw : ∀ j, WaitFact (st j))
    (h : notify (.one .isIdle) woken st = some st') (p : PoolStatus ι τ → Bool)
    (hp : ∀ before, p (.ready (.waitIdleLoop before)) =
      p (.blocked .isIdle (.waitIdleLoop before))) : tally p st' = tally p st := by
  rcases notify_one .isIdle woken st st' h with ⟨_, rfl⟩ | ⟨j, l, hj, rfl⟩
  · rfl
  · have hl := hw j
    rw [hj] at hl
    obtain ⟨before, rfl⟩ := hl
    exact tally_same p _ _ _ (by rw [hj]; exact (hp before).symm)

theorem notify_waits (signal : Signal PoolCond) (hw : ∀ j, WaitFact (st j))
    (h : notify signal woken st = some st') (j : ι) : WaitFact (st' j) :=
  notify_forall WaitFact (fun _ _ => trivial) signal woken st st' h hw j

omit [Fintype ι] in
theorem effect_waits (s : PoolState ι τ) (i : ι) (l : PoolLoc ι τ) (sec : PoolSection ι τ)
    (he : PoolEffect i s l sec) (h : ∀ j, WaitFact (st j)) (j : ι) :
    WaitFact (Function.update st i sec.status j) := by
  have hnew : WaitFact sec.status := by
    cases he with
    | workerWait => rfl
    | submitWait t => exact ⟨t, rfl⟩
    | idleWait l before => exact ⟨before, rfl⟩
    | workerExit | workerTake | workerRan | workerFinished | submitRefused | submitAccepted
      | idleReturn | destroyStarted | destroyJoined | destroyDone => trivial
  by_cases hji : j = i
  · rw [hji, Function.update_self]
    exact hnew
  · rw [Function.update_of_ne hji]
    exact h j

omit [DecidableEq ι] in
/-- No fewer workers and submitters are on their way than tasks and slots came free. -/
theorem signals_kept (s s' : PoolState ι τ) (h : SignalInvariant s st)
    (hwaits : ∀ j, WaitFact (st' j)) (hshut : s'.shutdown = s.shutdown)
    (hsize : s'.queueSize = s.queueSize)
    (he : tally (waitsOn .notEmpty) st' ≤ tally (waitsOn .notEmpty) st)
    (hf : tally (waitsOn .notFull) st' ≤ tally (waitsOn .notFull) st)
    (hwork : 0 < tally (waitsOn .notEmpty) st' →
      s'.count+tally atLoop st ≤ s.count+tally atLoop st')
    (hroom : 0 < tally (waitsOn .notFull) st' →
      s.count+tally atSubmit st ≤ s'.count+tally atSubmit st') : SignalInvariant s' st' where
  waits := hwaits
  open_wait := fun hpos => hshut.trans (h.open_wait (hpos.trans_le he))
  work := by
    intro hpos
    have := h.work (hpos.trans_le he)
    have := hwork hpos
    omega
  room := by
    intro hpos hs
    have := h.room (hpos.trans_le hf) (hshut ▸ hs)
    have := hroom hpos
    omega

omit [DecidableEq ι] in
theorem signals_same (s s' : PoolState ι τ) (h : SignalInvariant s st)
    (hwaits : ∀ j, WaitFact (st' j)) (hshut : s'.shutdown = s.shutdown)
    (hsize : s'.queueSize = s.queueSize) (hcount : s'.count = s.count)
    (he : tally (waitsOn .notEmpty) st' = tally (waitsOn .notEmpty) st)
    (hf : tally (waitsOn .notFull) st' = tally (waitsOn .notFull) st)
    (hl : tally atLoop st' = tally atLoop st) (hs : tally atSubmit st' = tally atSubmit st) :
    SignalInvariant s' st' :=
  signals_kept st st' s s' h hwaits hshut hsize he.le hf.le (fun _ => by rw [hcount, hl])
    (fun _ => by rw [hcount, hs])

section Sections
variable (s s' : PoolState ι τ) (i : ι) (x : PoolStatus ι τ)

theorem aside_signals (h : SignalInvariant s st) (hw : ∀ j, WaitFact (Function.update st i x j))
    (hshut : s'.shutdown = s.shutdown) (hsize : s'.queueSize = s.queueSize)
    (hcount : s'.count = s.count) (he : waitsOn .notEmpty (st i) = waitsOn .notEmpty x)
    (hf : waitsOn .notFull (st i) = waitsOn .notFull x) (hl : atLoop (st i) = atLoop x)
    (hs : atSubmit (st i) = atSubmit x) : SignalInvariant s' (Function.update st i x) :=
  signals_same st _ s s' h hw hshut hsize hcount (tally_same _ st i x he) (tally_same _ st i x hf)
    (tally_same _ st i x hl) (tally_same _ st i x hs)

theorem take_signals (task : Option τ) (ticket : ℕ) (hi : st i = .ready .workerLoop)
    (h : SignalInvariant s st) (hshut : s'.shutdown = s.shutdown)
    (hsize : s'.queueSize = s.queueSize) (hcount : s'.count+1 = s.count)
    (hw : ∀ j, WaitFact (Function.update st i (.ready (.workerRun task ticket)) j))
    (hn : notify (.one .notFull) woken (Function.update st i (.ready (.workerRun task ticket))) =
      some st') : SignalInvariant s' st' := by
  have hwaits := notify_waits _ st' woken _ hw hn
  have he := tally_same (waitsOn .notEmpty) st i (.ready (.workerRun task ticket)) (by rw [hi]; rfl)
  have hf := tally_same (waitsOn .notFull) st i (.ready (.workerRun task ticket)) (by rw [hi]; rfl)
  have hl := tally_loss atLoop st i (.ready (.workerRun task ticket)) (by rw [hi]; rfl) rfl
  have hs := tally_same atSubmit st i (.ready (.workerRun task ticket)) (by rw [hi]; rfl)
  generalize Function.update st i _ = st₁ at hn hw he hf hl hs
  rcases notify_notFull st₁ st' woken hw hn with ⟨h0, rfl⟩ | ⟨h1, h2, h3, h4⟩
  · exact signals_kept st st' s s' h hwaits hshut hsize he.le hf.le (fun _ => by omega)
      (fun hpos => by omega)
  · exact signals_kept st st' s s' h hwaits hshut hsize (by omega) (by omega)
      (fun _ => by omega) (fun _ => by omega)

theorem accept_signals (t : τ) (ticket : Option ℕ) (hi : st i = .ready (.submit (some t)))
    (h : SignalInvariant s st) (hshut : s'.shutdown = s.shutdown)
    (hsize : s'.queueSize = s.queueSize) (hcount : s'.count = s.count+1)
    (hw : ∀ j, WaitFact (Function.update st i (.ready (.submitted (some t) .ok ticket)) j))
    (hn : notify (.one .notEmpty) woken
      (Function.update st i (.ready (.submitted (some t) .ok ticket))) = some st') :
    SignalInvariant s' st' := by
  have hwaits := notify_waits _ st' woken _ hw hn
  have he := tally_same (waitsOn .notEmpty) st i (.ready (.submitted (some t) .ok ticket))
    (by rw [hi]; rfl)
  have hf := tally_same (waitsOn .notFull) st i (.ready (.submitted (some t) .ok ticket))
    (by rw [hi]; rfl)
  have hl := tally_same atLoop st i (.ready (.submitted (some t) .ok ticket)) (by rw [hi]; rfl)
  have hs := tally_loss atSubmit st i (.ready (.submitted (some t) .ok ticket)) (by rw [hi]; rfl)
    rfl
  generalize Function.update st i _ = st₁ at hn hw he hf hl hs
  rcases notify_notEmpty st₁ st' woken hw hn with ⟨h0, rfl⟩ | ⟨h1, h2, h3, h4⟩
  · exact signals_kept st st' s s' h hwaits hshut hsize he.le hf.le (fun hpos => by omega)
      (fun _ => by omega)
  · exact signals_kept st st' s s' h hwaits hshut hsize (by omega) (by omega)
      (fun _ => by omega) (fun _ => by omega)

theorem finish_signals (signal : Signal PoolCond) (hi : st i = .ready .workerFinish)
    (hsignal : signal = .one .isIdle ∨ signal = .none) (h : SignalInvariant s st)
    (hshut : s'.shutdown = s.shutdown) (hsize : s'.queueSize = s.queueSize)
    (hcount : s'.count = s.count)
    (hw : ∀ j, WaitFact (Function.update st i (.ready .workerLoop) j))
    (hn : notify signal woken (Function.update st i (.ready .workerLoop)) = some st') :
    SignalInvariant s' st' := by
  have hwaits := notify_waits _ st' woken signal hw hn
  have he := tally_same (waitsOn .notEmpty) st i (.ready .workerLoop) (by rw [hi]; rfl)
  have hf := tally_same (waitsOn .notFull) st i (.ready .workerLoop) (by rw [hi]; rfl)
  have hl := tally_gain atLoop st i (.ready .workerLoop) (by rw [hi]; rfl) rfl
  have hs := tally_same atSubmit st i (.ready .workerLoop) (by rw [hi]; rfl)
  generalize Function.update st i _ = st₁ at hn hw he hf hl hs
  have hsame : ∀ p : PoolStatus ι τ → Bool, (∀ before, p (.ready (.waitIdleLoop before)) =
      p (.blocked .isIdle (.waitIdleLoop before))) → tally p st' = tally p st₁ := by
    intro p hp
    rcases hsignal with rfl | rfl
    · exact notify_isIdle st₁ st' woken hw hn p hp
    · rw [notify_none _ _ _ hn]
  have h1 := hsame (waitsOn .notEmpty) (fun _ => rfl)
  have h2 := hsame (waitsOn .notFull) (fun _ => rfl)
  have h3 := hsame atLoop (fun _ => rfl)
  have h4 := hsame atSubmit (fun _ => rfl)
  exact signals_kept st st' s s' h hwaits hshut hsize (by omega) (by omega)
    (fun _ => by omega) (fun _ => by omega)

theorem worker_waits (hi : st i = .ready .workerLoop) (h : SignalInvariant s st)
    (hcount : s.count = 0) (hopen : s.shutdown = false)
    (hw : ∀ j, WaitFact (Function.update st i (.blocked .notEmpty .workerLoop) j)) :
    SignalInvariant s (Function.update st i (.blocked .notEmpty .workerLoop)) := by
  have hf := tally_same (waitsOn .notFull) st i (.blocked .notEmpty .workerLoop)
    (by rw [hi]; rfl)
  have hs := tally_same atSubmit st i (.blocked .notEmpty .workerLoop) (by rw [hi]; rfl)
  refine ⟨hw, fun _ => hopen, fun _ => hcount.trans_le (Nat.zero_le _), fun hpos _ => ?_⟩
  rw [hf] at hpos
  rw [hs]
  exact h.room hpos hopen

theorem submitter_waits (t : τ) (hi : st i = .ready (.submit (some t)))
    (h : SignalInvariant s st) (hfull : s.count = s.queueSize) (hopen : s.shutdown = false)
    (hw : ∀ j, WaitFact (Function.update st i (.blocked .notFull (.submit (some t))) j)) :
    SignalInvariant s (Function.update st i (.blocked .notFull (.submit (some t)))) := by
  have he := tally_same (waitsOn .notEmpty) st i (.blocked .notFull (.submit (some t)))
    (by rw [hi]; rfl)
  have hl := tally_same atLoop st i (.blocked .notFull (.submit (some t))) (by rw [hi]; rfl)
  refine ⟨hw, fun _ => hopen, fun hpos => ?_, fun _ _ => hfull.ge.trans (Nat.le_add_right _ _)⟩
  rw [he] at hpos
  rw [hl]
  exact h.work hpos

theorem shut_signals (h : SignalInvariant s st)
    (hw : ∀ j, WaitFact (Function.update st i x j)) (hshut : s.shutdown = true)
    (hshut' : s'.shutdown = s.shutdown)
    (he : waitsOn .notEmpty (st i) = waitsOn .notEmpty x) :
    SignalInvariant s' (Function.update st i x) := by
  have hnone : ¬ 0 < tally (waitsOn .notEmpty) (Function.update st i x) := by
    rw [tally_same _ st i x he]
    intro hpos
    have hopen := h.open_wait hpos
    rw [hshut] at hopen
    contradiction
  refine ⟨hw, fun hpos => absurd hpos hnone, fun hpos => absurd hpos hnone, fun _ hopen => ?_⟩
  rw [hshut', hshut] at hopen
  contradiction

end Sections

/-- What one section takes away its signal makes good. -/
theorem effect_signals (s : PoolState ι τ) (i : ι) (l : PoolLoc ι τ) (sec : PoolSection ι τ)
    (hi : st i = .ready l) (he : PoolEffect i s l sec)
    (hn : notify sec.signal woken (Function.update st i sec.status) = some st')
    (h : SignalInvariant s st) : SignalInvariant sec.shared st' := by
  have hw := effect_waits st s i l sec he h.waits
  cases he with
  | workerTake hc =>
    exact take_signals st st' woken s _ i _ _ hi h rfl rfl (Nat.sub_add_cancel hc) hw hn
  | submitAccepted t hs hc => exact accept_signals st st' woken s _ i t _ hi h rfl rfl rfl hw hn
  | workerFinished signal hsignal =>
    have hwhich : signal = .one .isIdle ∨ signal = .none :=
      hsignal.imp (fun hs => hs.2.2) (fun hs => hs.2)
    exact finish_signals st st' woken s _ i signal hi hwhich h rfl rfl rfl hw hn
  | destroyStarted =>
    have hwaits := notify_waits _ st' woken _ hw hn
    have h0 := (notify_all .notEmpty woken _ st' hn).1
    exact ⟨hwaits, fun hpos => by omega, fun hpos => by omega,
      fun _ hopen => Bool.noConfusion hopen⟩
  | workerWait hc hopen =>
    obtain rfl := notify_none _ _ _ hn
    exact worker_waits st s i hi h hc hopen hw
  | submitWait t hfull hopen =>
    obtain rfl := notify_none _ _ _ hn
    exact submitter_waits st s i t hi h hfull hopen hw
  | workerExit hs hc =>
    obtain rfl := notify_none _ _ _ hn
    exact shut_signals st s _ i _ h hw hs rfl (by rw [hi]; rfl)
  | submitRefused task code hcode hwhy =>
    obtain rfl := notify_none _ _ _ hn
    rcases hwhy with rfl | hs
    · apply aside_signals st s s i _ h hw rfl rfl rfl
      all_goals
        rw [hi]
        rfl
    · exact shut_signals st s _ i _ h hw hs rfl (by rw [hi]; rfl)
  | workerRan task ticket =>
    obtain rfl := notify_none _ _ _ hn
    apply aside_signals st s _ i _ h hw
    · split_ifs <;> rfl
    · split_ifs <;> rfl
    · split_ifs <;> rfl
    all_goals
      rw [hi]
      rfl
  | destroyJoined | destroyDone =>
    obtain rfl := notify_none _ _ _ hn
    apply aside_signals st s s i _ h hw rfl rfl rfl
    all_goals
      rw [hi]
      rfl
  | idleWait l _ hidle | idleReturn l _ hidle =>
    obtain rfl := notify_none _ _ _ hn
    apply aside_signals st s s i _ h hw rfl rfl rfl
    all_goals
      rw [hi]
      rcases hidle with ⟨rfl, _⟩ | rfl <;> rfl

theorem wake_signals (s : PoolState ι τ) (i : ι) (cond : PoolCond) (l : PoolLoc ι τ)
    (hi : st i = .blocked cond l) (h : SignalInvariant s st) :
    SignalInvariant s (Function.update st i (.ready l)) := by
  have hwaits : ∀ j, WaitFact (Function.update st i (.ready l) j) := by
    intro j
    by_cases hji : j = i
    · rw [hji, Function.update_self]
      trivial
    · rw [Function.update_of_ne hji]
      exact h.waits j
  have hwait := h.waits i
  rw [hi] at hwait
  cases cond with
  | notEmpty =>
    cases hwait
    have he := tally_loss (waitsOn .notEmpty) st i (.ready .workerLoop) (by rw [hi]; rfl) rfl
    have hf := tally_same (waitsOn .notFull) st i (.ready .workerLoop) (by rw [hi]; rfl)
    have hl := tally_gain atLoop st i (.ready .workerLoop) (by rw [hi]; rfl) rfl
    have hs := tally_same atSubmit st i (.ready .workerLoop) (by rw [hi]; rfl)
    exact signals_kept st _ s s h hwaits rfl rfl (by omega) hf.le (fun _ => by omega)
      (fun _ => by omega)
  | notFull =>
    obtain ⟨t, rfl⟩ := hwait
    have he := tally_same (waitsOn .notEmpty) st i (.ready (.submit (some t))) (by rw [hi]; rfl)
    have hf := tally_loss (waitsOn .notFull) st i (.ready (.submit (some t))) (by rw [hi]; rfl) rfl
    have hl := tally_same atLoop st i (.ready (.submit (some t))) (by rw [hi]; rfl)
    have hs := tally_gain atSubmit st i (.ready (.submit (some t))) (by rw [hi]; rfl) rfl
    exact signals_kept st _ s s h hwaits rfl rfl he.le (by omega) (fun _ => by omega)
      (fun _ => by omega)
  | isIdle =>
    obtain ⟨before, rfl⟩ := hwait
    apply aside_signals st s s i _ h hwaits rfl rfl rfl
    all_goals
      rw [hi]
      rfl

end Signals

section Runs
variable [DecidableEq ι] [Fintype ι]

theorem start_waiting (pool : WorkerPool ι τ) (calls : ι → PoolCall τ) (cond : PoolCond) :
    tally (waitsOn cond) (poolStart pool calls).status = 0 := by
  rw [tally_zero]
  exact fun j => rfl

theorem start_signals (pool : WorkerPool ι τ) (calls : ι → PoolCall τ) :
    SignalInvariant (poolStart pool calls).shared (poolStart pool calls).status where
  waits := fun _ => trivial
  open_wait := fun h => absurd (start_waiting pool calls .notEmpty) h.ne'
  work := fun h => absurd (start_waiting pool calls .notEmpty) h.ne'
  room := fun h => absurd (start_waiting pool calls .notFull) h.ne'

theorem reachable_signals (spurious : Bool) (s₀ s : PoolRun ι τ)
    (h₀ : SignalInvariant s₀.shared s₀.status) (h : Reachable (poolMachine spurious) s₀ s) :
    SignalInvariant s.shared s.status := by
  induction h with
  | start => exact h₀
  | step s s' move _ hn ih =>
    rcases next_effect _ s s' move hn with
      ⟨i, woken, l, sec, _, hi, ha, hs, hst⟩ | ⟨i, cond, l, hi, hs, hst⟩
    · rw [hs]
      exact effect_signals s.status s'.status woken s.shared i l sec hi
        (act_effect spurious i l s.shared sec ha) hst ih
    · rw [hs, hst]
      exact wake_signals s.status s.shared i cond l hi ih

section Quiescence
variable (spurious : Bool) (s : PoolRun ι τ) (hq : Quiescent (poolMachine spurious) s)
include hq

theorem quiescent_nobody (p : PoolStatus ι τ → Bool) (hp : ∀ x, p x = true →
      ∃ l, x = .ready l ∧ ∀ i, (poolMachine spurious).act i l s.shared ≠ none) :
    tally p s.status = 0 := by
  rw [tally_zero]
  intro j
  apply Bool.eq_false_of_not_eq_true
  intro h
  obtain ⟨l, hl, hact⟩ := hp _ h
  exact hact j (hq j l hl)

theorem quiescent_loop : tally atLoop s.status = 0 := by
  apply quiescent_nobody spurious s hq
  intro x hx
  cases x with
  | blocked cond l => contradiction
  | ready l =>
    cases l with
    | workerLoop => exact ⟨_, rfl, fun _ => Option.some_ne_none _⟩
    | _ => contradiction

theorem quiescent_submit : tally atSubmit s.status = 0 := by
  apply quiescent_nobody spurious s hq
  intro x hx
  cases x with
  | blocked cond l => contradiction
  | ready l =>
    cases l with
    | submit task => exact ⟨_, rfl, fun _ => Option.some_ne_none _⟩
    | _ => contradiction

theorem quiescent_empty (hp : PoolInvariant s.shared s.locs)
    (hs : SignalInvariant s.shared s.status) : s.shared.count = 0 := by
  have hloop := quiescent_loop spurious s hq
  obtain ⟨w, hw⟩ := List.exists_mem_of_ne_nil _ hp.staffed
  have hworker := (hp.workers w).mp hw
  have hwait := hs.waits w
  have hfact := hp.facts w
  rw [State.locs] at hworker hfact
  cases hst : s.status w with
  | blocked cond l =>
    rw [hst] at hworker hwait
    cases cond with
    | notEmpty =>
      have hpos := (tally_pos (waitsOn .notEmpty) s.status).mpr ⟨w, by rw [hst]; rfl⟩
      exact Nat.le_zero.mp (hloop ▸ hs.work hpos)
    | notFull =>
      obtain ⟨t, rfl⟩ := hwait
      contradiction
    | isIdle =>
      obtain ⟨before, rfl⟩ := hwait
      contradiction
  | ready l =>
    have hno := hq w l hst
    rw [hst] at hworker hfact
    cases l with
    | workerExited => exact hfact.2
    | workerLoop | workerRun | workerFinish => exact absurd hno (Option.some_ne_none _)
    | _ => contradiction

theorem quiescent_inactive (hp : PoolInvariant s.shared s.locs)
    (hs : SignalInvariant s.shared s.status) : s.shared.activeTasks = 0 := by
  rw [hp.active, tally_zero]
  intro j
  have hwait := hs.waits j
  rw [State.locs]
  cases hst : s.status j with
  | blocked cond l =>
    rw [hst] at hwait
    cases cond with
    | notEmpty =>
      cases hwait
      rfl
    | notFull =>
      obtain ⟨t, rfl⟩ := hwait
      rfl
    | isIdle =>
      obtain ⟨before, rfl⟩ := hwait
      rfl
  | ready l =>
    have hno := hq j l hst
    cases l with
    | workerRun | workerFinish => exact absurd hno (Option.some_ne_none _)
    | _ => rfl

/-- A pool in which no thread can go on has nothing left to do. -/
theorem quiescent_idle (hp : PoolInvariant s.shared s.locs)
    (hs : SignalInvariant s.shared s.status) :
    s.shared.count = 0 ∧ s.shared.activeTasks = 0 :=
  ⟨quiescent_empty spurious s hq hp hs, quiescent_inactive spurious s hq hp hs⟩

end Quiescence

end Runs

end EraseCure.PoolWakeups
