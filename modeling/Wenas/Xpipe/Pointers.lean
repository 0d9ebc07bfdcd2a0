import Wenas.Xpipe.Threads

/-!
# Pointers stay whole

Every message of the program is a pointer of eight bytes. As long as all calls transfer eight bytes,
both counters are multiples of eight, the room in the pipe is, too, and a transfer moves a whole
pointer or nothing.
-/
namespace Wenas.Xpipe

open Wenas.Machine

/-- `sizeof(void*)`. -/
def pointerSize : Nat := 8

/-- All bytes of the call have been transferred. -/
def Pc.settled : Pc → Bool
  | .tryFlag | .dropFlag | .lockWake | .wake | .unlockWake => true
  | _ => false

/-- A call that transfers a pointer. -/
structure PointerCall (th : Thread) : Prop where
  len : th.len = 8
  pos : th.pos = 0 ∨ th.pos = 8
  moving : th.pc = .transfer → th.pos = 0
  settled : th.pc.settled → th.pos = 8
  kept : th.pc ≠ .giveUp

/-- What the reader has got in a call that has not returned yet. -/
def System.pending (s : System) : List (List UInt8) :=
  if (s.threads .reader).pc ≠ .idle ∧ (s.threads .reader).pos = 8 then [(s.threads .reader).data] else []

/-- `r` pointers have been read. -/
structure Whole (s : System) (r : Nat) : Prop where
  intact : s.breaker = false
  queued : ∀ t ∈ s.waiters, (s.threads t).pc = .wait
  stream : Carries 13 s.pipe s.written.flatten (8 * r)
  eight : ∀ d ∈ s.written, d.length = 8
  moved : ∀ d ∈ s.moved, d.length = 0 ∨ d.length = 8
  calls : ∀ t, (s.threads t).pc ≠ .idle → PointerCall (s.threads t)
  data : ∀ n, (s.threads (.writer n)).pc ≠ .idle → (s.threads (.writer n)).data.length = 8
  empty : (s.threads .reader).pc ≠ .idle → (s.threads .reader).pos = 0 → (s.threads .reader).data = []
  got : s.returned ++ s.pending = s.written.take r

theorem length_flatten_eight {l : List (List UInt8)} (h : ∀ d ∈ l, d.length = 8) : l.flatten.length = 8 * l.length := by
  induction l with
  | nil => rfl
  | cons d l ih =>
    have hd := h d List.mem_cons_self
    have hl := ih (fun d' hd' => h d' (List.mem_cons_of_mem _ hd'))
    rw [List.flatten_cons, List.length_append, hd, hl, List.length_cons]
    omega

/-- The bytes of pointer `r`. -/
theorem chunk_flatten {l : List (List UInt8)} (h : ∀ d ∈ l, d.length = 8) {r : Nat} (hr : r < l.length) :
    (l.flatten.drop (8 * r)).take 8 = l[r] := by
  induction l generalizing r with
  | nil => exact absurd hr (Nat.not_lt_zero r)
  | cons d l ih =>
    have hd := h d List.mem_cons_self
    cases r with
    | zero => simp [← hd]
    | succ r =>
      have hdrop : (d :: l).flatten.drop (8 * (r + 1)) = l.flatten.drop (8 * r) := by
        rw [List.flatten_cons, show 8 * (r + 1) = d.length + 8 * r by omega, List.drop_append]
        simp
      rw [hdrop, List.getElem_cons_succ]
      exact ih (fun d' hd' => h d' (List.mem_cons_of_mem _ hd')) (by simpa using hr)

section

variable {s s' : System} {r : Nat} {t : Tid} {pc : Pc}

theorem Whole.read_le (h : Whole s r) : r ≤ s.written.length := by
  have := h.stream.window.read_le
  rw [length_flatten_eight h.eight] at this
  omega

/-- What was returned is a beginning of what was written. -/
theorem Whole.prefix (h : Whole s r) : s.returned <+: s.written := by
  have hpre := List.prefix_append s.returned s.pending
  rw [h.got] at hpre
  exact hpre.trans (List.take_prefix _ _)

/-- The mutex and the flags are not part of the picture. -/
theorem Whole.mutex (h : Whole s r) (m : Option Tid) : Whole { s with mutex := m } r :=
  ⟨h.intact, h.queued, h.stream, h.eight, h.moved, h.calls, h.data, h.empty, h.got⟩

theorem Whole.raise (h : Whole s r) (f : Flag) (b : Bool) : Whole (s.raise f b) r :=
  ⟨h.intact, h.queued, h.stream, h.eight, h.moved, h.calls, h.data, h.empty, h.got⟩

/-- A thread goes on in its call. -/
theorem Whole.go (h : Whole s r) (t : Tid) (pc : Pc) (hrun : (s.threads t).pc ≠ .idle) (hpc : pc ≠ .idle)
    (hqueue : t ∈ s.waiters → pc = .wait)
    (hcall : PointerCall (s.threads t) → PointerCall { s.threads t with pc := pc }) : Whole (s.go t pc) r := by
  have hidle : ∀ u, ((s.go t pc).threads u).pc = .idle ↔ (s.threads u).pc = .idle := by
    intro u
    rw [go_threads]
    split
    · rename_i he
      subst he
      simp [hrun, hpc]
    · rfl
  have hsame : ∀ u, ((s.go t pc).threads u).data = (s.threads u).data ∧
      ((s.go t pc).threads u).pos = (s.threads u).pos := by
    intro u
    rw [go_threads]
    split
    · rename_i he
      subst he
      exact ⟨rfl, rfl⟩
    · exact ⟨rfl, rfl⟩
  refine ⟨h.intact, ?_, h.stream, h.eight, h.moved, ?_, ?_, ?_, ?_⟩
  · intro u hu
    rw [go_threads]
    split
    · rename_i he
      subst he
      exact hqueue hu
    · exact h.queued u hu
  · intro u hu
    have hold := h.calls u ((hidle u).not.mp hu)
    rw [go_threads]
    split
    · rename_i he
      subst he
      exact hcall hold
    · exact hold
  · intro n hn
    rw [(hsame _).1]
    exact h.data n ((hidle _).not.mp hn)
  · intro hn hp
    rw [(hsame _).1]
    rw [(hsame _).2] at hp
    exact h.empty ((hidle _).not.mp hn) hp
  · have hpend : (s.go t pc).pending = s.pending := by
      simp only [System.pending, ne_eq, hidle, hsame]
    rw [hpend]
    exact h.got

theorem PointerCall.go {th : Thread} (h : PointerCall th) (hmoving : pc ≠ .transfer)
    (hsettled : pc.settled → th.pc.settled)
    (hkept : pc ≠ .giveUp) : PointerCall { th with pc := pc } :=
  ⟨h.len, h.pos, fun hc => absurd hc hmoving, fun hc => h.settled (hsettled hc), hkept⟩

/-- A thread outside `mutex_wait` goes on. -/
theorem Whole.advance (h : Whole s r) (hrun : (s.threads t).pc ≠ .idle) (hout : (s.threads t).pc ≠ .wait)
    (hpc : pc ≠ .idle)
    (hcall : PointerCall (s.threads t) → PointerCall { s.threads t with pc := pc }) : Whole (s.go t pc) r :=
  h.go t pc hrun hpc (fun hmem => absurd (h.queued t hmem) hout) hcall

theorem Whole.signal (h : Whole s r) (pick : Nat) : Whole (s.signal pick) r := by
  rcases signal_cases s pick with he | ⟨u, hu, he⟩
  · rw [he]
    exact h
  · rw [he]
    have hw := h.queued u hu
    have hcut : Whole { s with waiters := s.waiters.filter (· ≠ u) } r :=
      ⟨h.intact, fun v hv => h.queued v (List.mem_filter.mp hv).1, h.stream, h.eight, h.moved, h.calls, h.data,
        h.empty, h.got⟩
    refine hcut.go u .woken (by simp [hw]) (by simp) ?_ (fun hc => hc.go (by simp) (fun hc => nomatch hc) (by simp))
    intro hmem
    simp at hmem

theorem Whole.acquire (h : Whole s r) (hrun : (s.threads t).pc ≠ .idle) (hout : (s.threads t).pc ≠ .wait)
    (hpc : pc ≠ .idle)
    (hcall : PointerCall (s.threads t) → PointerCall { s.threads t with pc := pc }) : Whole (s.acquire t pc) r := by
  rw [System.acquire]
  split
  · exact (h.advance hrun hout hpc hcall).mutex _
  · exact h

/-- A call returns when its pointer has been transferred. -/
theorem Whole.finish (h : Whole s r) (hrun : (s.threads t).pc ≠ .idle) (hout : (s.threads t).pc ≠ .wait)
    (hpos : (s.threads t).pos = 8) : Whole (s.finish t) r := by
  have hthreads : ∀ u, (s.finish t).threads u = if u = t then { s.threads t with pc := .idle } else s.threads u := by
    intro u
    cases t <;> exact go_threads ..
  have hwaiters : (s.finish t).waiters = s.waiters := by cases t <;> rfl
  have hcalls : ∀ u, ((s.finish t).threads u).pc ≠ .idle → (s.finish t).threads u = s.threads u := by
    intro u hu
    rw [hthreads] at hu ⊢
    split
    · rename_i he
      rw [if_pos he] at hu
      exact absurd rfl hu
    · rfl
  have hgot : (s.finish t).returned ++ (s.finish t).pending = s.returned ++ s.pending := by
    cases t with
    | reader =>
      have hold : s.pending = [(s.threads .reader).data] := if_pos ⟨hrun, hpos⟩
      have hnew : (s.finish .reader).pending = [] := by
        rw [System.pending, hthreads]
        simp
      rw [hold, hnew, List.append_nil]
      rfl
    | writer n =>
      have hreader : (s.finish (.writer n)).threads .reader = s.threads .reader := by
        rw [hthreads]
        simp
      rw [System.pending, System.pending, hreader]
      rfl
  refine ⟨?_, ?_, ?_, ?_, ?_, ?_, ?_, ?_, ?_⟩
  · cases t <;> exact h.intact
  · intro u hu
    rw [hwaiters] at hu
    rw [hthreads]
    split
    · rename_i he
      subst he
      exact absurd (h.queued u hu) hout
    · exact h.queued u hu
  · cases t <;> exact h.stream
  · cases t <;> exact h.eight
  · cases t <;> exact h.moved
  · intro u hu
    have he := hcalls u hu
    rw [he] at hu ⊢
    exact h.calls u hu
  · intro n hn
    have he := hcalls _ hn
    rw [he] at hn ⊢
    exact h.data n hn
  · intro hn hp
    have he := hcalls _ hn
    rw [he] at hn hp ⊢
    exact h.empty hn hp
  · rw [hgot]
    cases t <;> exact h.got

/-- The thread goes to sleep. -/
theorem Whole.sleep (h : Whole s r) (hpc : (s.threads t).pc = .test) :
    Whole { s.release t .wait with waiters := s.waiters ++ [t] } r := by
  have hgo : Whole (s.go t .wait) r :=
    h.advance (by simp [hpc]) (by simp [hpc]) (by simp) (fun hc => hc.go (by simp) (fun hs => nomatch hs) (by simp))
  refine ⟨hgo.intact, ?_, hgo.stream, hgo.eight, hgo.moved, hgo.calls, hgo.data, hgo.empty, hgo.got⟩
  intro u hu
  by_cases he : u = t
  · simp [System.release, he]
  · have hmem : u ∈ s.waiters := by
      rcases List.mem_append.mp hu with hu | hu
      · exact hu
      · exact absurd (List.mem_singleton.mp hu) he
    simpa [System.release, he] using h.queued u hmem

/-- The state after a transfer by thread `t`. -/
def System.moving (s : System) (t : Tid) (th : Thread) (pipe : Pipe) (moved written : List (List UInt8)) : System :=
  { s.set t th with pipe := pipe, moved := moved, written := written }

theorem Whole.moving (h : Whole s r) (hpc : (s.threads t).pc = .transfer) {th : Thread} {pipe : Pipe}
    {out : List UInt8} {written : List (List UInt8)} {r' : Nat} (hcall : PointerCall th)
    (hstream : Carries 13 pipe written.flatten (8 * r')) (height : ∀ d ∈ written, d.length = 8)
    (hout : out.length = 0 ∨ out.length = 8) (hdata : ∀ n, t = .writer n → th.data.length = 8)
    (hempty : t = .reader → th.pos = 0 → th.data = [])
    (hgot : s.returned ++ (s.moving t th pipe (s.moved ++ [out]) written).pending = written.take r') :
    Whole (s.moving t th pipe (s.moved ++ [out]) written) r' := by
  refine ⟨h.intact, ?_, hstream, height, ?_, ?_, ?_, ?_, hgot⟩
  · intro u hu
    have hw := h.queued u hu
    have hne : u ≠ t := by
      intro he
      rw [he, hpc] at hw
      cases hw
    simpa [System.moving, hne] using hw
  · intro d hd
    rcases List.mem_append.mp hd with hd | hd
    · exact h.moved d hd
    · rw [List.mem_singleton.mp hd]
      exact hout
  · intro u hu
    by_cases he : u = t
    · simpa [System.moving, he] using hcall
    · have hold := h.calls u (by simpa [System.moving, he] using hu)
      simpa [System.moving, he] using hold
  · intro n hn
    by_cases he : Tid.writer n = t
    · simpa [System.moving, he] using hdata n he.symm
    · have hold := h.data n (by simpa [System.moving, he] using hn)
      simpa [System.moving, he] using hold
  · intro hn hp
    by_cases he : Tid.reader = t
    · have hp' : th.pos = 0 := by simpa [System.moving, he] using hp
      simpa [System.moving, he] using hempty he.symm hp'
    · have hold := h.empty (by simpa [System.moving, he] using hn) (by simpa [System.moving, he] using hp)
      simpa [System.moving, he] using hold

theorem ofNat_eight_iff {k : Nat} (h : k = 0 ∨ k = 8) : UInt64.ofNat k = 8 ↔ k = 8 := by
  rcases h with rfl | rfl
  · decide
  · decide

theorem PointerCall.whole {th : Thread} (h : PointerCall th) {k : Nat} (hk : k = 0 ∨ k = 8) (data : List UInt8) :
    PointerCall { th with data := data, pos := UInt64.ofNat k, pc := .whole } := by
  refine ⟨h.len, ?_, fun hc => (nomatch hc), fun hc => (nomatch hc), by simp⟩
  rcases hk with rfl | rfl
  · exact Or.inl rfl
  · exact Or.inr rfl

/-- A write puts in the whole pointer or nothing. -/
theorem Whole.transfer_writer (h : Whole s r) {n : Nat} (hpc : (s.threads (.writer n)).pc = .transfer) (locked : Bool) :
    Whole (s.transfer (.writer n) locked) r := by
  have hcall := h.calls (.writer n) (by simp [hpc])
  have hdata := h.data n (by simp [hpc])
  have hflat := length_flatten_eight h.eight
  have hle := h.read_le
  obtain ⟨k, hk, hclip, hstream⟩ := h.stream.write locked 8 hdata
  have hk' : k = 0 ∨ k = 8 := by
    rw [hclip, hflat]
    split
    · exact Or.inl rfl
    · simp only [show (8 : UInt64).toNat = 8 from rfl]
      omega
  have hwrote : (xpipeWriteOnce locked (s.threads (.writer n)).data 8 s.pipe).1 = UInt64.ofNat k := by
    rw [← hk]
    simp
  have hstep : s.transfer (.writer n) locked =
      s.moving (.writer n) { s.threads (.writer n) with pos := UInt64.ofNat k, pc := .whole }
        (xpipeWriteOnce locked (s.threads (.writer n)).data 8 s.pipe).2
        (s.moved ++ [(s.threads (.writer n)).data.take k])
        (if k = 8 then s.written ++ [(s.threads (.writer n)).data] else s.written) := by
    have hsub : (8 : UInt64) - 0 = 8 := by decide
    have hnat : (UInt64.ofNat k).toNat = k := by rw [← hwrote, hk]
    simp only [System.transfer, System.moving, hcall.moving hpc, hcall.len, UInt64.toNat_zero, List.drop_zero, hsub,
      hwrote, zero_add, ofNat_eight_iff hk', hnat]
  have hpending : ∀ pipe moved written, (s.moving (.writer n)
      { s.threads (.writer n) with pos := UInt64.ofNat k, pc := .whole } pipe moved written).pending = s.pending := by
    intro pipe moved written
    simp [System.pending, System.moving]
  rw [hstep]
  refine h.moving hpc (hcall.whole hk' _) ?_ ?_ ?_ (fun _ _ => hdata) (fun hc => nomatch hc) ?_
  · rcases hk' with rfl | rfl
    · simpa using hstream
    · simpa [← hdata] using hstream
  · intro d hd
    split at hd
    · rcases List.mem_append.mp hd with hd | hd
      · exact h.eight d hd
      · rw [List.mem_singleton.mp hd]
        exact hdata
    · exact h.eight d hd
  · rw [List.length_take, hdata]
    omega
  · rw [hpending, h.got]
    split
    · rw [List.take_append_of_le_length hle]
    · rfl

/-- A read takes out the whole next pointer or nothing. -/
theorem Whole.transfer_reader (h : Whole s r) (hpc : (s.threads .reader).pc = .transfer) (locked : Bool) :
    ∃ r', Whole (s.transfer .reader locked) r' := by
  have hcall := h.calls .reader (by simp [hpc])
  have hpos := hcall.moving hpc
  have hempty := h.empty (by simp [hpc]) hpos
  have hflat := length_flatten_eight h.eight
  have hle := h.read_le
  obtain ⟨k, hclip, hout, hstream⟩ := h.stream.read locked 8
  have hk' : k = 0 ∨ k = 8 ∧ r < s.written.length := by
    rw [hclip, hflat]
    split
    · exact Or.inl rfl
    · simp only [show (8 : UInt64).toNat = 8 from rfl]
      omega
  have hlen : (xpipeReadOnce locked 8 s.pipe).1.length = k := by
    rw [hout, List.length_take, List.length_drop, hflat]
    omega
  have hstep : s.transfer .reader locked =
      s.moving .reader
        { s.threads .reader with data := (xpipeReadOnce locked 8 s.pipe).1, pos := UInt64.ofNat k, pc := .whole }
        (xpipeReadOnce locked 8 s.pipe).2 (s.moved ++ [(xpipeReadOnce locked 8 s.pipe).1]) s.written := by
    have hsub : (8 : UInt64) - 0 = 8 := by decide
    simp only [System.transfer, System.moving, hpos, hcall.len, hsub, hempty, List.nil_append, hlen, zero_add]
    rfl
  have hnone : s.pending = [] := by
    simp [System.pending, hpos]
  have hgot := h.got
  rw [hnone, List.append_nil] at hgot
  rw [hstep]
  rcases hk' with rfl | ⟨rfl, hr⟩
  · refine ⟨r, h.moving hpc (hcall.whole (Or.inl rfl) _) hstream h.eight (Or.inl hlen) (fun _ hc => nomatch hc)
      (fun _ _ => List.length_eq_zero_iff.mp hlen) ?_⟩
    rw [hgot]
    simp [System.pending, System.moving]
  · refine ⟨r + 1, h.moving hpc (hcall.whole (Or.inr rfl) _) hstream h.eight (Or.inr hlen) (fun _ hc => nomatch hc)
      (fun _ hc => by simp at hc) ?_⟩
    have hnext := chunk_flatten h.eight hr
    rw [hgot, List.take_add_one, List.getElem?_eq_getElem hr, hout, hnext]
    simp [System.pending, System.moving]

theorem PointerCall.pos_of_not_lt {th : Thread} (h : PointerCall th) (hlt : ¬ th.pos < th.len) : th.pos = 8 := by
  rcases h.pos with hp | hp
  · rw [hp, h.len] at hlt
    exact absurd (by decide) hlt
  · exact hp

theorem Whole.step (h : Whole s r) (t : Tid) (locked : Bool) (pick : Nat) : ∃ r', Whole (s.step t locked pick) r' := by
  rw [System.step.eq_def]
  cases hpc : (s.threads t).pc with
  | idle => exact ⟨r, h⟩
  | head =>
    have hcall := h.calls t (by simp [hpc])
    have hcont : s.continues t = decide ((s.threads t).pos < (s.threads t).len) := by
      cases t <;> simp [System.continues, h.intact]
    dsimp only
    rw [hcont]
    split
    · rename_i hlt
      have hlt' : (s.threads t).pos < (s.threads t).len := by simpa using hlt
      have hzero : (s.threads t).pos = 0 := by
        rcases hcall.pos with hp | hp
        · exact hp
        · rw [hp, hcall.len] at hlt'
          exact absurd hlt' (by decide)
      exact ⟨r, h.advance (by simp [hpc]) (by simp [hpc]) (by simp)
        (fun hc => ⟨hc.len, hc.pos, fun _ => hzero, fun hs => (nomatch hs), by simp⟩)⟩
    · rename_i hlt
      exact ⟨r, h.finish (by simp [hpc]) (by simp [hpc]) (hcall.pos_of_not_lt (by simpa using hlt))⟩
  | transfer =>
    cases t with
    | reader => exact h.transfer_reader hpc locked
    | writer n => exact ⟨r, h.transfer_writer hpc locked⟩
  | whole =>
    have hcall := h.calls t (by simp [hpc])
    dsimp only
    split
    · exact ⟨r, h.advance (by simp [hpc]) (by simp [hpc]) (by simp)
        (fun hc => hc.go (by simp) (fun hs => nomatch hs) (by simp))⟩
    · rename_i he
      have hpos : (s.threads t).pos = 8 := by
        rw [← hcall.len]
        simpa using he
      exact ⟨r, h.advance (by simp [hpc]) (by simp [hpc]) (by simp)
        (fun hc => ⟨hc.len, hc.pos, fun hm => (nomatch hm), fun _ => hpos, by simp⟩)⟩
  | lock =>
    exact ⟨r, h.acquire (by simp [hpc]) (by simp [hpc]) (by simp)
      (fun hc => hc.go (by simp) (fun hs => nomatch hs) (by simp))⟩
  | intact =>
    dsimp only
    rw [if_pos (by simp [h.intact])]
    exact ⟨r, h.advance (by simp [hpc]) (by simp [hpc]) (by simp)
      (fun hc => hc.go (by simp) (fun hs => nomatch hs) (by simp))⟩
  | notify =>
    have hself := signal_self (t := t) h.queued (by simp [hpc]) pick
    exact ⟨r, (h.signal pick).advance (by simp [hself, hpc]) (by simp [hself, hpc]) (by simp)
      (fun hc => hc.go (by simp) (fun hs => nomatch hs) (by simp))⟩
  | spin =>
    dsimp only
    split
    · exact ⟨r, h⟩
    · exact ⟨r, (h.raise _ _).advance (by simp [hpc]) (by simp [hpc]) (by simp)
        (fun hc => hc.go (by simp) (fun hs => nomatch hs) (by simp))⟩
  | test =>
    dsimp only
    split
    · exact ⟨r, h.sleep (by simp [hpc])⟩
    · exact ⟨r, h.advance (by simp [hpc]) (by simp [hpc]) (by simp)
        (fun hc => hc.go (by simp) (fun hs => nomatch hs) (by simp))⟩
  | wait => exact ⟨r, h⟩
  | woken =>
    exact ⟨r, h.acquire (by simp [hpc]) (by simp [hpc]) (by simp)
      (fun hc => hc.go (by simp) (fun hs => nomatch hs) (by simp))⟩
  | unflag =>
    exact ⟨r, (h.raise _ _).advance (by simp [hpc]) (by simp [hpc]) (by simp)
      (fun hc => hc.go (by simp) (fun hs => nomatch hs) (by simp))⟩
  | unlock =>
    have hgo : Whole (s.go t .head) r :=
      h.advance (by simp [hpc]) (by simp [hpc]) (by simp) (fun hc => hc.go (by simp) (fun hs => nomatch hs) (by simp))
    exact ⟨r, hgo.mutex none⟩
  | giveUp => exact absurd hpc (h.calls t (by simp [hpc])).kept
  | tryFlag =>
    dsimp only
    split
    · exact ⟨r, h.advance (by simp [hpc]) (by simp [hpc]) (by simp)
        (fun hc => hc.go (by simp) (by simp [hpc, Pc.settled]) (by simp))⟩
    · exact ⟨r, (h.raise _ _).advance (by simp [hpc]) (by simp [hpc]) (by simp)
        (fun hc => hc.go (by simp) (by simp [hpc, Pc.settled]) (by simp))⟩
  | dropFlag =>
    have hpos := (h.calls t (by simp [hpc])).settled (by simp [hpc, Pc.settled])
    exact ⟨r, (h.raise _ _).finish (by simp [hpc]) (by simp [hpc]) hpos⟩
  | lockWake =>
    exact ⟨r, h.acquire (by simp [hpc]) (by simp [hpc]) (by simp)
      (fun hc => hc.go (by simp) (by simp [hpc, Pc.settled]) (by simp))⟩
  | wake =>
    have hself := signal_self (t := t) h.queued (by simp [hpc]) pick
    exact ⟨r, (h.signal pick).advance (by simp [hself, hpc]) (by simp [hself, hpc]) (by simp)
      (fun hc => hc.go (by simp) (by simp [hself, hpc, Pc.settled]) (by simp))⟩
  | unlockWake =>
    have hpos := (h.calls t (by simp [hpc])).settled (by simp [hpc, Pc.settled])
    exact ⟨r, (h.finish (by simp [hpc]) (by simp [hpc]) hpos).mutex none⟩

/-- An idle thread calls `xpipe_write` or `xpipe_read` for a pointer. -/
theorem Whole.call (h : Whole s r) (hidle : (s.threads t).pc = .idle) {data : List UInt8}
    (hdata : ∀ n, t = .writer n → data.length = 8) (hempty : t = .reader → data = []) :
    Whole (s.set t ⟨.head, data, 8, 0⟩) r := by
  refine ⟨h.intact, ?_, h.stream, h.eight, h.moved, ?_, ?_, ?_, ?_⟩
  · intro u hu
    have hw := h.queued u hu
    have hne : u ≠ t := by
      intro he
      rw [he, hidle] at hw
      cases hw
    simpa [hne] using hw
  · intro u hu
    by_cases he : u = t
    · simpa [he] using (⟨rfl, Or.inl rfl, fun hm => (nomatch hm), fun hs => (nomatch hs), by simp⟩ :
        PointerCall ⟨.head, data, 8, 0⟩)
    · have hold := h.calls u (by simpa [he] using hu)
      simpa [he] using hold
  · intro n hn
    by_cases he : Tid.writer n = t
    · simpa [he] using hdata n he.symm
    · have hold := h.data n (by simpa [he] using hn)
      simpa [he] using hold
  · intro hn hp
    by_cases he : Tid.reader = t
    · simpa [he] using hempty he.symm
    · have hold := h.empty (by simpa [he] using hn) (by simpa [he] using hp)
      simpa [he] using hold
  · have hpend : (s.set t ⟨.head, data, 8, 0⟩).pending = s.pending := by
      by_cases he : Tid.reader = t
      · subst he
        simp [System.pending, hidle]
      · simp [System.pending, he]
    rw [hpend]
    exact h.got

end

/-- Every call transfers a pointer and the pipe is never broken. -/
def Act.Pointer : Act → Prop
  | .write _ d => d.bytes.length = pointerSize
  | .read len => len = UInt64.ofNat pointerSize
  | .step _ _ _ => True
  | .interrupt => False

theorem Whole.act {s : System} {r : Nat} (h : Whole s r) {a : Act} (ha : a.Pointer) : ∃ r', Whole (s.act a) r' := by
  cases a with
  | write n d =>
    have hlen : d.len = 8 := by
      rw [Block.len, show d.bytes.length = 8 from ha]
      rfl
    rw [System.act, hlen]
    split
    · exact ⟨r, h.call (by assumption) (fun _ _ => ha) (fun hc => by cases hc)⟩
    · exact ⟨r, h⟩
  | read len =>
    rw [System.act, show len = 8 from ha]
    split
    · exact ⟨r, h.call (by assumption) (fun _ hc => by cases hc) (fun _ => rfl)⟩
    · exact ⟨r, h⟩
  | step t locked pick => exact h.step t locked pick
  | interrupt => cases ha

theorem Whole.create (buf : Nat → UInt8) : Whole (System.create (UInt64.ofNat (pointerSize * 1024)) buf) 0 where
  intact := rfl
  queued := by simp [System.create]
  stream := Carries.create (by decide) (by decide) buf
  eight := by simp [System.create]
  moved := by simp [System.create]
  calls := fun _ hc => absurd rfl hc
  data := fun _ hc => absurd rfl hc
  empty := fun hc => absurd rfl hc
  got := rfl

/-- With any number of writers and in any order of steps, no step transfers a part of a pointer, and
`xpipe_read` returns the pointers in the order in which their writes were completed. -/
theorem pointers_whole (buf : Nat → UInt8) (acts : List Act) (h : ∀ a ∈ acts, a.Pointer) :
    let s := run System.act (System.create (UInt64.ofNat (pointerSize * 1024)) buf) acts
    (∀ d ∈ s.moved, d.length = 0 ∨ d.length = pointerSize) ∧ s.returned <+: s.written := by
  intro s
  have hstart : ∃ r, Whole (System.create (UInt64.ofNat (pointerSize * 1024)) buf) r := ⟨0, Whole.create buf⟩
  have hstep : ∀ s a, (∃ r, Whole s r) → a.Pointer → ∃ r, Whole (s.act a) r := fun _ _ ⟨_, hs⟩ ha => hs.act ha
  obtain ⟨r, hw⟩ : ∃ r, Whole s r := invariant_of_mem hstep h hstart
  exact ⟨hw.moved, hw.prefix⟩

/-- Two writers take turns, and the reader reads twice. -/
def takeTurns : List Act :=
  [.write 0 ⟨List.replicate 8 1, by decide⟩, .write 1 ⟨List.replicate 8 2, by decide⟩] ++
    (List.replicate 8 [.step (.writer 1) false 0, .step (.writer 0) false 0]).flatten ++
    [.read 8] ++ List.replicate 10 (.step .reader false 0) ++ [.read 8] ++ List.replicate 10 (.step .reader false 0)

/-- The pointer whose write was completed first comes first. -/
theorem pointers_whole_two_writers :
    let s := run System.act (System.create (UInt64.ofNat (pointerSize * 1024)) (fun _ => 0)) takeTurns
    s.returned = [List.replicate 8 2, List.replicate 8 1] ∧
      (∀ d ∈ s.moved, d.length = 0 ∨ d.length = pointerSize) ∧ s.returned <+: s.written :=
  ⟨by decide +kernel, pointers_whole (fun _ => 0) takeTurns (by simp [takeTurns, Act.Pointer, pointerSize])⟩

end Wenas.Xpipe
