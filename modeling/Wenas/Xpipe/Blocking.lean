import Wenas.Xpipe.Threads

/-!
# The blocking protocol of the pipe

A writer that finds the pipe full keeps `wblock` while it sleeps in `mutex_wait`. A second writer on
the same path takes the mutex first and then spins on `wblock`, and the sleeper needs the mutex to give
`wblock` back.
-/
namespace Wenas.Xpipe

open Wenas.Machine

/-- The places between a `mutex_lock` and the next `mutex_unlock` or `mutex_wait`. -/
def Pc.holding : Pc → Bool
  | .intact | .notify | .spin | .test | .unflag | .unlock | .giveUp | .wake | .unlockWake => true
  | _ => false

/-- The places inside `mutex_wait`. -/
def Pc.waiting : Pc → Bool
  | .wait | .woken => true
  | _ => false

/-- The places on the way to the own flag, with the mutex. -/
def Pc.entering : Pc → Bool
  | .intact | .notify | .spin => true
  | _ => false

/-- The places a thread cannot leave before it gets the mutex. -/
def Pc.needsMutex : Pc → Bool
  | .lock | .wait | .woken | .lockWake => true
  | _ => false

/-- Thread `h` has taken the flag and not given it back. -/
def System.Holder (s : System) (f : Flag) (h : Tid) : Prop :=
  f = h.own ∧ ((s.threads h).pc = .test ∨ (s.threads h).pc.waiting ∨ (s.threads h).pc = .unflag) ∨
    f = h.other ∧ (s.threads h).pc = .dropFlag

/-- A thread has the mutex and spins on a flag, and the holder of the flag needs the mutex. -/
def System.Dead (s : System) : Prop :=
  ∃ t h, s.mutex = some t ∧ (s.threads t).pc = .spin ∧ s.Holder t.own h ∧ (s.threads h).pc.needsMutex

/-- A writer takes the mutex to block on an unbroken pipe only if no other writer is inside `mutex_wait`. -/
def NoSecond (s : System) : Act → Prop
  | .step (.writer n) _ _ =>
    (s.threads (.writer n)).pc = .lock → s.mutex = none → s.breaker = false →
      ∀ m, (s.threads (.writer m)).pc.waiting = false
  | _ => True

/-- Who is inside the mutex has it, who waits is in `mutex_wait`, and no writer is on its way to `wblock`
while another one sleeps. -/
structure Calm (s : System) : Prop where
  held : ∀ t, (s.threads t).pc.holding → s.mutex = some t
  queued : ∀ t ∈ s.waiters, (s.threads t).pc = .wait
  alone : ∀ n m, (s.threads (.writer n)).pc.entering → ((s.threads (.writer n)).pc = .intact → s.breaker = false) →
    (s.threads (.writer m)).pc.waiting = false

section

variable {s s' : System} {t : Tid} {pc : Pc}

/-- What a thread may do to the mutex when it goes from `old` to `new`. -/
def MutexMove (t : Tid) (old new : Pc) (m m' : Option Tid) : Prop :=
  (m' = m ∧ (new.holding → old.holding)) ∨ (m = none ∧ m' = some t) ∨ (old.holding ∧ m' = none ∧ new.holding = false)

/-- One thread moves and the others stay. -/
theorem Calm.move (h : Calm s) (t : Tid) (pc : Pc) (hpc : ∀ u, (s'.threads u).pc = if u = t then pc else (s.threads u).pc)
    (hbreak : s'.breaker = s.breaker) (hmutex : MutexMove t (s.threads t).pc pc s.mutex s'.mutex)
    (hwaiters : ∀ u ∈ s'.waiters, u ∈ s.waiters ∧ u ≠ t ∨ u = t ∧ pc = .wait)
    (hwait : pc.waiting → (s.threads t).pc.holding ∨ (s.threads t).pc.waiting)
    (henter : pc.entering → ∀ n, t = .writer n → (pc = .intact → s.breaker = false) →
      ∀ m, (s.threads (.writer m)).pc.waiting = false) : Calm s' := by
  have hheld : ∀ u, u ≠ t → (s.threads u).pc.holding → s'.mutex = some u := by
    intro u hu hh
    have hmu := h.held u hh
    rcases hmutex with ⟨he, -⟩ | ⟨hnone, -⟩ | ⟨hold, -, -⟩
    · rw [he, hmu]
    · rw [hnone] at hmu
      cases hmu
    · have := h.held t hold
      rw [hmu] at this
      exact absurd (Option.some.inj this) hu
  have hentering : ∀ p : Pc, p.entering → p.holding := by
    intro p hp
    cases p <;> simp_all [Pc.entering, Pc.holding]
  constructor
  · intro u hu
    rw [hpc] at hu
    split at hu
    · rename_i he
      subst he
      rcases hmutex with ⟨he, hold⟩ | ⟨-, he⟩ | ⟨-, -, hno⟩
      · rw [he, h.held u (hold hu)]
      · exact he
      · rw [hno] at hu
        cases hu
    · rename_i hne
      exact hheld u hne hu
  · intro u hu
    rw [hpc]
    rcases hwaiters u hu with ⟨hmem, hne⟩ | ⟨he, hwt⟩
    · rw [if_neg hne]
      exact h.queued u hmem
    · rw [if_pos he]
      exact hwt
  · intro n m hent hin
    rw [hpc] at hent hin ⊢
    rw [hbreak] at hin
    by_cases hn : Tid.writer n = t
    · rw [if_pos hn] at hent hin
      have hall := henter hent n hn.symm hin m
      split
      · by_contra hw
        have hw' : pc.waiting = true := by simpa using hw
        cases pc <;> simp_all [Pc.entering, Pc.waiting]
      · exact hall
    · rw [if_neg hn] at hent hin
      have hold := h.alone n m hent hin
      split
      · by_contra hw
        have hw' : pc.waiting = true := by simpa using hw
        rename_i hm
        rcases hwait hw' with hh | hw''
        · have h₁ := h.held t hh
          rw [h.held _ (hentering _ hent)] at h₁
          exact hn (Option.some.inj h₁)
        · rw [← hm, hold] at hw''
          cases hw''
      · exact hold

theorem Calm.signal (h : Calm s) (pick : Nat) : Calm (s.signal pick) := by
  rcases signal_cases s pick with he | ⟨u, hu, he⟩
  · rw [he]
    exact h
  · rw [he]
    have hw := h.queued u hu
    refine h.move u .woken ?_ rfl (Or.inl ⟨rfl, fun hc => nomatch hc⟩) ?_ ?_ ?_
    · intro v
      simp only [go_threads]
      split <;> rfl
    · intro v hv
      simp at hv
      exact Or.inl hv
    · intro _
      rw [hw]
      exact Or.inr rfl
    · intro hc
      cases hc

/-- A thread outside the queue moves to a place outside `mutex_wait`. -/
theorem Calm.stay (h : Calm s) (t : Tid) (pc : Pc) (hout : (s.threads t).pc ≠ .wait)
    (hpc : ∀ u, (s'.threads u).pc = if u = t then pc else (s.threads u).pc)
    (hbreak : s'.breaker = s.breaker) (hwaiters : s'.waiters = s.waiters) (hnew : pc.waiting = false)
    (hmutex : MutexMove t (s.threads t).pc pc s.mutex s'.mutex)
    (henter : pc.entering → ∀ n, t = .writer n → (pc = .intact → s.breaker = false) →
      ∀ m, (s.threads (.writer m)).pc.waiting = false) : Calm s' := by
  refine h.move t pc hpc hbreak hmutex ?_ ?_ henter
  · intro u hu
    rw [hwaiters] at hu
    refine Or.inl ⟨hu, ?_⟩
    intro he
    rw [he] at hu
    exact hout (h.queued t hu)
  · intro hw
    rw [hnew] at hw
    cases hw

theorem Calm.go (h : Calm s) (hout : (s.threads t).pc ≠ .wait) (hnew : pc.waiting = false)
    (hhold : pc.holding → (s.threads t).pc.holding) (henter : pc.entering = false) : Calm (s.go t pc) := by
  refine h.stay t pc hout ?_ rfl rfl hnew (Or.inl ⟨rfl, hhold⟩) ?_
  · intro u
    simp only [go_threads]
    split <;> rfl
  · intro he
    rw [henter] at he
    cases he

/-- Flags are not part of the picture. -/
theorem Calm.raise (h : Calm s) (f : Flag) (b : Bool) : Calm (s.raise f b) := ⟨h.held, h.queued, h.alone⟩

theorem Calm.acquire (h : Calm s) (hout : (s.threads t).pc ≠ .wait) (hnew : pc.waiting = false)
    (henter : s.mutex = none → pc.entering → ∀ n, t = .writer n → (pc = .intact → s.breaker = false) →
      ∀ m, (s.threads (.writer m)).pc.waiting = false) : Calm (s.acquire t pc) := by
  rw [System.acquire]
  split
  · rename_i hfree
    refine h.stay t pc hout ?_ rfl rfl hnew (Or.inr (Or.inl ⟨hfree, rfl⟩)) (henter hfree)
    intro u
    simp only [go_threads]
    split <;> rfl
  · exact h

theorem finish_pc (s : System) (t u : Tid) :
    ((s.finish t).threads u).pc = if u = t then .idle else (s.threads u).pc := by
  cases t <;> simp only [System.finish, go_threads] <;> split <;> rfl

theorem Calm.finish (h : Calm s) (hout : (s.threads t).pc ≠ .wait) : Calm (s.finish t) := by
  refine h.stay t .idle hout (finish_pc s t) ?_ ?_ rfl (Or.inl ⟨?_, fun hc => nomatch hc⟩) (fun hc => nomatch hc)
  all_goals cases t <;> rfl

/-- The call returns and the mutex is given back. -/
theorem Calm.finish_release (h : Calm s) (hold : (s.threads t).pc.holding) :
    Calm { s.finish t with mutex := none } := by
  have hout : (s.threads t).pc ≠ .wait := by
    intro hw
    rw [hw] at hold
    cases hold
  refine h.stay t .idle hout (finish_pc s t) ?_ ?_ rfl (Or.inr (Or.inr ⟨hold, rfl, rfl⟩)) (fun hc => nomatch hc)
  all_goals cases t <;> rfl

theorem Calm.transfer (h : Calm s) (hout : (s.threads t).pc ≠ .wait) (locked : Bool) : Calm (s.transfer t locked) := by
  refine h.stay t .whole hout ?_ ?_ ?_ rfl (Or.inl ⟨?_, fun hc => nomatch hc⟩) (fun hc => nomatch hc)
  · intro u
    cases t <;> simp only [System.transfer, set_threads] <;> split <;> rfl
  all_goals cases t <;> rfl

/-- A thread goes on towards its flag. -/
theorem Calm.go_on (h : Calm s) (hold : (s.threads t).pc.entering)
    (hin : (s.threads t).pc = .intact → s.breaker = false)
    (hnew : pc.waiting = false) : Calm (s.go t pc) := by
  have hout : (s.threads t).pc ≠ .wait := by
    intro hw
    rw [hw] at hold
    cases hold
  have hholding : (s.threads t).pc.holding := by
    cases hpc : (s.threads t).pc <;> simp_all [Pc.entering, Pc.holding]
  refine h.stay t pc hout ?_ rfl rfl hnew (Or.inl ⟨rfl, fun _ => hholding⟩) ?_
  · intro u
    simp only [go_threads]
    split <;> rfl
  · intro _ n ht _ m
    subst ht
    exact h.alone n m hold hin

/-- The mutex is given back. -/
theorem Calm.release (h : Calm s) (hold : (s.threads t).pc.holding) (hnew : pc.waiting = false)
    (hnot : pc.holding = false) (henter : pc.entering = false) : Calm (s.release t pc) := by
  have hout : (s.threads t).pc ≠ .wait := by
    intro hw
    rw [hw] at hold
    cases hold
  refine h.stay t pc hout ?_ rfl rfl hnew (Or.inr (Or.inr ⟨hold, rfl, hnot⟩)) ?_
  · intro u
    simp only [System.release, go_threads]
    split <;> rfl
  · intro he
    rw [henter] at he
    cases he

/-- The thread goes to sleep. -/
theorem Calm.sleep (h : Calm s) (hold : (s.threads t).pc.holding) :
    Calm { s.release t .wait with waiters := s.waiters ++ [t] } := by
  refine h.move t .wait ?_ rfl (Or.inr (Or.inr ⟨hold, rfl, rfl⟩)) ?_ (fun _ => Or.inl hold)
    (fun hc => nomatch hc)
  · intro u
    simp only [System.release, go_threads]
    split <;> rfl
  · intro u hu
    rcases List.mem_append.mp hu with hmem | hmem
    · refine Or.inl ⟨hmem, ?_⟩
      intro he
      subst he
      rw [h.queued u hmem] at hold
      cases hold
    · exact Or.inr ⟨List.mem_singleton.mp hmem, rfl⟩

theorem Calm.step (h : Calm s) (t : Tid) (locked : Bool) (pick : Nat) (hsecond : NoSecond s (.step t locked pick)) :
    Calm (s.step t locked pick) := by
  rw [System.step.eq_def]
  cases hpc : (s.threads t).pc with
  | idle => exact h
  | head =>
    dsimp only
    split
    · exact h.go (by simp [hpc]) rfl (fun hc => nomatch hc) rfl
    · exact h.finish (by simp [hpc])
  | transfer => exact h.transfer (by simp [hpc]) locked
  | whole =>
    dsimp only
    split
    · exact h.go (by simp [hpc]) rfl (fun hc => nomatch hc) rfl
    · exact h.go (by simp [hpc]) rfl (fun hc => nomatch hc) rfl
  | lock =>
    refine h.acquire (by simp [hpc]) rfl ?_
    intro hfree _ n ht hin
    subst ht
    exact hsecond hpc hfree (hin rfl)
  | intact =>
    dsimp only
    split
    · rename_i hb
      exact h.go_on (by simp [hpc, Pc.entering]) (fun _ => by simpa using hb) rfl
    · cases t with
      | reader => exact h.go (by simp [hpc]) rfl (by simp [hpc, Pc.holding]) rfl
      | writer n => exact h.go (by simp [hpc]) rfl (by simp [hpc, Pc.holding]) rfl
  | notify =>
    have hself := signal_self (t := t) h.queued (by simp [hpc]) pick
    refine (h.signal pick).go_on ?_ ?_ rfl
    · simp [hself, hpc, Pc.entering]
    · simp [hself, hpc]
  | spin =>
    dsimp only
    split
    · exact h
    · exact (h.raise _ _).go (by simp [hpc]) rfl (by simp [hpc, Pc.holding]) rfl
  | test =>
    dsimp only
    split
    · exact h.sleep (by simp [hpc, Pc.holding])
    · exact h.go (by simp [hpc]) rfl (by simp [hpc, Pc.holding]) rfl
  | wait => exact h
  | woken => exact h.acquire (by simp [hpc]) rfl (fun _ hc => nomatch hc)
  | unflag => exact (h.raise _ _).go (by simp [hpc]) rfl (by simp [hpc, Pc.holding]) rfl
  | unlock => exact h.release (by simp [hpc, Pc.holding]) rfl rfl rfl
  | giveUp => exact h.finish_release (by simp [hpc, Pc.holding])
  | tryFlag =>
    dsimp only
    split
    · exact h.go (by simp [hpc]) rfl (fun hc => nomatch hc) rfl
    · exact (h.raise _ _).go (by simp [hpc]) rfl (fun hc => nomatch hc) rfl
  | dropFlag => exact (h.raise _ _).finish (by simp [hpc])
  | lockWake => exact h.acquire (by simp [hpc]) rfl (fun _ hc => nomatch hc)
  | wake =>
    have hself := signal_self (t := t) h.queued (by simp [hpc]) pick
    exact (h.signal pick).go (by simp [hself, hpc]) rfl (by simp [hself, hpc, Pc.holding]) rfl
  | unlockWake => exact h.finish_release (by simp [hpc, Pc.holding])

theorem Calm.interrupt (h : Calm s) : Calm s.interrupt := by
  rw [System.interrupt]
  split
  · rename_i hfree
    have hnone : ∀ t, (s.threads t).pc.holding = false := by
      intro t
      by_contra hh
      have := h.held t (by simpa using hh)
      rw [hfree] at this
      cases this
    have hpc : ∀ t, (if t ∈ s.waiters then { s.threads t with pc := .woken } else s.threads t).pc.holding = false := by
      intro t
      split
      · rfl
      · exact hnone t
    refine ⟨?_, fun t ht => absurd ht List.not_mem_nil, ?_⟩
    · intro t hh
      dsimp only at hh
      rw [hpc t] at hh
      cases hh
    · intro n m hent _
      have hh := hpc (.writer n)
      dsimp only at hent
      generalize (if Tid.writer n ∈ s.waiters then { s.threads (.writer n) with pc := .woken }
        else s.threads (.writer n)).pc = pc at hent hh
      cases pc <;> simp_all [Pc.entering, Pc.holding]
  · exact h

theorem Calm.act (h : Calm s) {a : Act} (ha : NoSecond s a) : Calm (s.act a) := by
  have hcall : ∀ {t : Tid} {th : Thread}, (s.threads t).pc = .idle → th.pc = .head → Calm (s.set t th) := by
    intro t th hidle hth
    refine h.stay t .head (by simp [hidle]) ?_ rfl rfl rfl (Or.inl ⟨rfl, fun hc => nomatch hc⟩)
      (fun hc => nomatch hc)
    intro u
    rw [set_threads]
    split
    · exact hth
    · rfl
  cases a with
  | write n d =>
    rw [System.act]
    split
    · exact hcall (by assumption) rfl
    · exact h
  | read len =>
    rw [System.act]
    split
    · exact hcall (by assumption) rfl
    · exact h
  | step t locked pick => exact h.step t locked pick ha
  | interrupt => exact h.interrupt

theorem Calm.create (len : UInt64) (buf : Nat → UInt8) : Calm (System.create len buf) :=
  ⟨fun _ hh => (nomatch hh), fun _ ht => absurd ht List.not_mem_nil, fun _ _ hent => (nomatch hent)⟩

theorem Calm.not_dead (h : Calm s) : ¬ s.Dead := by
  rintro ⟨t, u, hmutex, hspin, hholder, hneeds⟩
  rcases hholder with ⟨hflag, hpc⟩ | ⟨-, hpc⟩
  · have hwait : (s.threads u).pc.waiting := by
      rcases hpc with hpc | hpc | hpc
      · rw [hpc] at hneeds
        cases hneeds
      · exact hpc
      · rw [hpc] at hneeds
        cases hneeds
    cases t with
    | reader =>
      cases u with
      | reader =>
        rw [hspin] at hwait
        cases hwait
      | writer m => cases hflag
    | writer n =>
      cases u with
      | reader => cases hflag
      | writer m =>
        have halone := h.alone n m (by rw [hspin]; rfl) (by simp [hspin])
        rw [halone] at hwait
        cases hwait
  · rw [hpc] at hneeds
    cases hneeds

end

/-- In every run in which no writer goes to block while another one sleeps, no state is dead. -/
theorem no_dead_state (len : UInt64) (buf : Nat → UInt8) (acts : List Act)
    (h : Along System.act NoSecond (System.create len buf) acts) (j : Nat) :
    ¬ (run System.act (System.create len buf) (acts.take j)).Dead := by
  have htake : Along System.act NoSecond (System.create len buf) (acts.take j) := by
    have hsplit := List.take_append_drop j acts
    rw [← hsplit, Along.append] at h
    exact h.1
  have hcalm : Calm (run System.act (System.create len buf) (acts.take j)) :=
    htake.invariant (fun _ _ hs ha => hs.act ha) (Calm.create len buf)
  exact hcalm.not_dead

/-- A thread moves `n` times. -/
def moves (t : Tid) (n : Nat) : List Act := List.replicate n (.step t false 0)

/-- A writer comes to the lock of a full pipe and no other one waits. -/
theorem no_dead_state_one_writer :
    ¬ (run System.act (System.create 1 (fun _ => 0)) ((.write 0 ⟨[1, 2], by decide⟩ :: moves (.writer 0) 4).take 5)).Dead := by
  refine no_dead_state 1 (fun _ => 0) (.write 0 ⟨[1, 2],
    by decide⟩ :: moves (.writer 0) 4) ⟨trivial, ?_, ?_, ?_, ?_, trivial⟩ 5
  · intro h
    exact absurd h (by decide +kernel)
  · intro h
    exact absurd h (by decide +kernel)
  · intro h
    exact absurd h (by decide +kernel)
  · intro _ _ _ m
    cases m <;> rfl

/-- Eight bytes. -/
def pointer (b : UInt8) : Block := ⟨List.replicate 8 b, by rw [List.length_replicate]; decide⟩

/-- Two writers on a full pipe: the first sleeps with `wblock`, the second has the mutex and spins. -/
theorem dead_state_reached :
    (run System.act (System.create 8 (fun _ => 0))
      (.write 0 (pointer 1) :: moves (.writer 0) 5 ++ .write 0 (pointer 2) :: moves (.writer 0) 8 ++
        .write 1 (pointer 3) :: moves (.writer 1) 6)).Dead :=
  ⟨.writer 1, .writer 0, by decide +kernel, by decide +kernel,
    Or.inl ⟨rfl, Or.inr (Or.inl (by decide +kernel))⟩, by decide +kernel⟩

end Wenas.Xpipe
