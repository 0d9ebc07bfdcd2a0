import Wenas.Xltp.Frames

/-!
# Who owns a received frame

For every way the calls can end: the frames are released once, and none is queued and
released, exactly if the handler that fails leaves the received frame to `xltp_recv`.
-/
namespace Wenas.Xltp

open Wenas.Xmsger

/-! ### When ownership is respected -/

def Outcome.downloads (o : Outcome) (response : Bool) : Prop :=
  o.word = true ∧ o.maker = none ∧ (response = true → o.send = true) ∧ o.pipe = true

def Outcome.uploads (o : Outcome) (response : Bool) : Prop :=
  o.word = true ∧ o.maker = none ∧ (response = true → o.send = true)

/-- The handler of a request either succeeds or leaves the frame to the caller, and follows no wild pointer. -/
def Outcome.ReqFine (o : Outcome) : Api → Prop
  | .echo => ¬ (o.ip = .moved ∧ o.port = .failed) ∧ (o.ip ≠ .failed → o.port ≠ .failed → o.test = true)
  | .boot => o.ip ≠ .failed ∧ o.port ≠ .failed ∧ o.uuid ≠ .failed ∧ o.code ≠ .failed
  | .put => o.downloads true ∨ o.word = true ∧ o.code ≠ .moved ∧ o.disconnect = false
  | .get => o.uploads true

def Outcome.ResFine (o : Outcome) (kept : Nat) : Api → Prop
  | .echo => True
  | .boot => True
  | .put => o.stored = true ∧ 0 < kept ∧ o.uploads false
  | .get => o.stored = true ∧ o.downloads false

def Outcome.Fine (o : Outcome) (kept : Nat) (type : UInt16) : Prop :=
  o.stream = true ∨
    if type = xpackTypeReq then ∀ a ∈ o.api, o.ReqFine a
    else if type = xpackTypeMsg then ∀ a ∈ o.callback, o.ResFine kept a
    else if type = xpackTypeRes then o.filled = true → ∀ a ∈ o.callback, o.ResFine kept a ∧ o.flush = true
    else True

/-! ### Running the primitives -/

section

variable {α β : Type} (s : Refs) (f : Frame)

@[simp] theorem run_pure (a : α) : (pure a : M α).run s = (a, s) := rfl

@[simp] theorem run_bind (x : M α) (g : α → M β) : (x >>= g).run s = (g (x.run s).1).run (x.run s).2 := rfl

@[simp] theorem run_note (op : Op) : (note op).run s = ((), { s with log := s.log ++ [op] }) := rfl

@[simp] theorem run_alive : (alive f).run s = (decide (0 < s.count f), s) := rfl

@[simp] theorem run_xlCreator : (xlCreator f).run s = ((), { s with count := Function.update s.count f 1 }) := rfl

@[simp] theorem run_xlFree_none : (xlFree none).run s = (none, s) := rfl

@[simp] theorem run_xlFree_some : (xlFree (some f)).run s =
    (if s.count f = 1 then none else some f,
      ⟨Function.update s.count f (s.count f - 1), s.log ++ [.free f (decide (0 < s.count f))]⟩) := rfl

@[simp] theorem run_xlClear : (xlClear f).run s = ((), { s with log := s.log ++ [.clear f (decide (0 < s.count f))] }) := rfl

@[simp] theorem run_xlAdd_ok : (xlAdd f .ok).run s = ((f, true), s) := rfl

@[simp] theorem run_xlAdd_failed : (xlAdd f .failed).run s = ((f, false), s) := rfl

@[simp] theorem run_xlAdd_moved : (xlAdd f .moved).run s =
    ((.moved f, true), { s with count := Function.update (Function.update s.count (.moved f) (s.count f)) f 0 }) := rfl

@[simp] theorem run_queue (ok : Bool) : (xmsgerQueue f ok).run s =
    ((), if ok then { s with log := s.log ++ [.queue f (decide (0 < s.count f))] } else s) := by
  cases ok <;> rfl

end

/-! ### A stream and its buffers -/

def Frame.isBuf : Frame → Bool
  | .buf _ => true
  | .moved f => f.isBuf
  | _ => false

/-- Only buffers were touched, and all of them rightly. -/
structure Buffered (s s' : Refs) (l : List Op) : Prop where
  log : s'.log = s.log ++ l
  count : ∀ f, f.isBuf = false → s'.count f = s.count f
  owned : Owned l
  bufs : ∀ f, f ∈ freed l ∨ f ∈ queued l → f.isBuf = true

theorem makeBufs_spec (is : List (Fin 4)) (s : Refs) :
    ((makeBufs is).run s).2.log = s.log ∧
      (∀ f, f.isBuf = false → ((makeBufs is).run s).2.count f = s.count f) ∧
      ∀ i, i ∈ is ∨ s.count (.buf i) = 1 → ((makeBufs is).run s).2.count (.buf i) = 1 := by
  induction is generalizing s with
  | nil => simp [makeBufs]
  | cons j is ih =>
    obtain ⟨hlog, hcount, hbuf⟩ := ih ((xlCreator (.buf j)).run s).2
    simp only [makeBufs, run_bind]
    refine ⟨hlog, ?_, ?_⟩
    · intro f hf
      rw [hcount f hf]
      have hne : f ≠ .buf j := by
        rintro rfl
        cases hf
      simp [hne]
    · intro i hi
      apply hbuf
      by_cases hij : i = j
      · subst hij
        simp
      · rcases hi with hi | hi
        · exact Or.inl ((List.mem_cons.mp hi).resolve_left hij)
        · right
          simpa [hij] using hi

theorem Owned.append {l l' : List Op} (h : Owned l) (h' : Owned l')
    (hd : ∀ f, f ∈ freed l ∨ f ∈ queued l → ¬ (f ∈ freed l' ∨ f ∈ queued l')) : Owned (l ++ l') := by
  refine ⟨?_, ?_⟩
  · intro op hop
    rcases List.mem_append.mp hop with hop | hop
    · exact h.1 op hop
    · exact h'.1 op hop
  · intro f hf hf'
    simp only [queued, freed, List.filterMap_append, List.mem_append] at hf hf'
    rcases hf with hf | hf <;> rcases hf' with hf' | hf'
    · exact h.2 f hf hf'
    · exact hd f (Or.inr hf) (Or.inl hf')
    · exact hd f (Or.inl hf') (Or.inr hf)
    · exact h'.2 f hf hf'

theorem xlioStreamFree_log (is : List (Fin 4)) (hn : is.Nodup) (s : Refs) (hs : ∀ i ∈ is, s.count (.buf i) = 1) :
    ((xlioStreamFree is).run s).2.log = s.log ++ (is.map fun i => .free (.buf i) true) ∧
      ∀ f, f.isBuf = false → ((xlioStreamFree is).run s).2.count f = s.count f := by
  induction is generalizing s with
  | nil => simp [xlioStreamFree]
  | cons j is ih =>
    have hj : s.count (.buf j) = 1 := hs j List.mem_cons_self
    have hother : ∀ i ∈ is, ((xlFree (some (.buf j))).run s).2.count (.buf i) = 1 := by
      intro i hi
      have hne : i ≠ j := fun he => (List.nodup_cons.mp hn).1 (he ▸ hi)
      simpa [hne] using hs i (List.mem_cons_of_mem _ hi)
    obtain ⟨hlog, hcount⟩ := ih (List.nodup_cons.mp hn).2 _ hother
    simp only [xlioStreamFree, run_bind]
    refine ⟨?_, ?_⟩
    · rw [hlog]
      simp [hj]
    · intro f hf
      rw [hcount f hf]
      have hne : f ≠ .buf j := by
        rintro rfl
        cases hf
      simp [hne]

theorem Buffered.trans {s s₁ s₂ : Refs} {l l' : List Op} (h : Buffered s s₁ l) (h' : Buffered s₁ s₂ l')
    (hd : ∀ f, f ∈ freed l ∨ f ∈ queued l → ¬ (f ∈ freed l' ∨ f ∈ queued l')) : Buffered s s₂ (l ++ l') where
  log := by rw [h'.log, h.log, List.append_assoc]
  count := fun f hf => (h'.count f hf).trans (h.count f hf)
  owned := h.owned.append h'.owned hd
  bufs := by
    intro f hf
    simp only [freed, queued, List.filterMap_append, List.mem_append] at hf
    rcases hf with (hf | hf) | (hf | hf)
    · exact h.bufs f (Or.inl hf)
    · exact h'.bufs f (Or.inl hf)
    · exact h.bufs f (Or.inr hf)
    · exact h'.bufs f (Or.inr hf)

theorem Buffered.refl (s : Refs) : Buffered s s [] := ⟨by simp, fun _ _ => rfl, by decide, by simp [freed, queued]⟩

@[simp] theorem freed_bufs (is : List (Fin 4)) : freed (is.map fun i => .free (.buf i) true) = is.map .buf := by
  simp [freed]

@[simp] theorem queued_bufs (is : List (Fin 4)) : queued (is.map fun i => .free (.buf i) true) = [] := by
  simp [queued]

theorem xlioStreamFree_spec (is : List (Fin 4)) (hn : is.Nodup) (s : Refs) (hs : ∀ i ∈ is, s.count (.buf i) = 1) :
    Buffered s ((xlioStreamFree is).run s).2 (is.map fun i => .free (.buf i) true) := by
  obtain ⟨hlog, hcount⟩ := xlioStreamFree_log is hn s hs
  refine ⟨hlog, hcount, ⟨?_, by simp⟩, ?_⟩
  · intro op hop
    obtain ⟨i, -, rfl⟩ := List.mem_map.mp hop
    rfl
  · intro f hf
    simp only [freed_bufs, queued_bufs, List.mem_map, List.not_mem_nil, or_false] at hf
    obtain ⟨i, -, rfl⟩ := hf
    rfl

theorem makeBufs_buffered (is : List (Fin 4)) (s : Refs) : Buffered s ((makeBufs is).run s).2 [] := by
  obtain ⟨hlog, hcount, -⟩ := makeBufs_spec is s
  exact ⟨by simpa using hlog, hcount, by decide, by simp [freed, queued]⟩

variable (o : Outcome)

/-- A stream is made with its four buffers, or leaves nothing behind. -/
theorem xlioStreamMaker_spec (s : Refs) :
    ∃ l s', Buffered s s' l ∧
      (o.maker = none ∧ l = [] ∧ (∀ i, s'.count (.buf i) = 1) ∧ (xlioStreamMaker o).run s = (some [0, 1, 2, 3], s') ∨
        o.maker ≠ none ∧ (xlioStreamMaker o).run s = (none, s')) := by
  cases hm : o.maker with
  | none =>
    refine ⟨[], _, makeBufs_buffered [0, 1, 2, 3] s, Or.inl ⟨rfl, rfl, ?_, by simp [xlioStreamMaker, hm]⟩⟩
    intro i
    apply (makeBufs_spec [0, 1, 2, 3] s).2.2
    left
    revert i
    decide
  | some n =>
    have hmade := makeBufs_buffered ((List.finRange 4).take n) s
    have hfree := xlioStreamFree_spec ((List.finRange 4).take n)
      ((List.nodup_finRange 4).sublist (List.take_sublist _ _))
      ((makeBufs ((List.finRange 4).take n)).run s).2 (fun i hi => (makeBufs_spec _ s).2.2 i (Or.inl hi))
    exact ⟨_, _, hmade.trans hfree (by simp [freed, queued]), Or.inr ⟨by simp, by simp [xlioStreamMaker, hm]⟩⟩

/-- The first buffer is queued, wherever it lies. -/
theorem Buffered.queue {s : Refs} {f : Frame} (hf : f.isBuf = true) (hc : s.count f = 1) (ok : Bool) :
    Buffered s ((xmsgerQueue f ok).run s).2 (if ok then [.queue f true] else []) := by
  cases ok with
  | false => exact Buffered.refl s
  | true =>
    refine ⟨by simp [hc], fun _ _ => rfl, by simp [Owned, Op.live, queued, freed], ?_⟩
    simp [freed, queued, hf]

theorem sendStatus_spec (s : Refs) (hs : ∀ i, s.count (.buf i) = 1) :
    ∃ l s', Buffered s s' l ∧ (sendStatus o).run s = (o.send, s') ∧ (∀ i ≠ 0, s'.count (.buf i) = 1) ∧
      ∀ i ≠ 0, ¬ (.buf i ∈ freed l ∨ .buf i ∈ queued l) := by
  have hstay : ∀ a : Add, a ≠ .moved → ∃ b, (xlAdd (.buf 0) a).run s = ((.buf 0, b), s) := by
    intro a ha
    cases a with
    | ok => exact ⟨true, rfl⟩
    | failed => exact ⟨false, rfl⟩
    | moved => exact absurd rfl ha
  by_cases ha : o.status = .moved
  · let s₁ : Refs := { s with count := Function.update (Function.update s.count (.moved (.buf 0)) 1) (.buf 0) 0 }
    have hmoved : Buffered s s₁ [] := by
      refine ⟨by simp [s₁], ?_, by decide, by simp [freed, queued]⟩
      intro f hf
      have h₁ : f ≠ .buf 0 := by rintro rfl; cases hf
      have h₂ : f ≠ .moved (.buf 0) := by rintro rfl; cases hf
      simp [s₁, h₁, h₂]
    have hq := Buffered.queue (s := s₁) (f := .moved (.buf 0)) rfl (by simp [s₁]) o.send
    refine ⟨_, _, hmoved.trans hq (by simp [freed, queued]), ?_, ?_, ?_⟩
    · simp [sendStatus, ha, hs, s₁]
    · intro i hi
      cases o.send <;> simp [s₁, hi, hs]
    · intro i hi
      cases o.send <;> simp [freed, queued]
  · obtain ⟨b, hb⟩ := hstay o.status ha
    have hq := Buffered.queue (s := s) (f := .buf 0) rfl (hs 0) o.send
    refine ⟨_, _, hq, ?_, ?_, ?_⟩
    · simp [sendStatus, hb]
    · intro i hi
      cases o.send <;> simp [hs]
    · intro i hi
      cases o.send <;> simp [freed, queued, hi]

/-- What is left of a stream that is given up. -/
theorem Buffered.giveUp {s s₁ : Refs} {l : List Op} (h : Buffered s s₁ l) (is : List (Fin 4)) (hn : is.Nodup)
    (hs : ∀ i ∈ is, s₁.count (.buf i) = 1) (hd : ∀ i ∈ is, ¬ (.buf i ∈ freed l ∨ .buf i ∈ queued l)) :
    ∃ l', Buffered s ((xlioStreamFree is).run s₁).2 l' := by
  refine ⟨_, h.trans (xlioStreamFree_spec is hn s₁ hs) ?_⟩
  intro f hf hf'
  simp only [freed_bufs, queued_bufs, List.mem_map, List.not_mem_nil, or_false] at hf'
  obtain ⟨i, hi, rfl⟩ := hf'
  exact hd i hi hf

theorem Buffered.mark {s s₁ : Refs} {l : List Op} (h : Buffered s s₁ l) (op : Op) (hl : op.live = true)
    (hf : freed [op] = []) (hq : queued [op] = []) : Buffered s ((note op).run s₁).2 (l ++ [op]) := by
  refine h.trans ⟨rfl, fun _ _ => rfl, ⟨by simpa using hl, by simp [hq]⟩, by simp [hf, hq]⟩ ?_
  simp [hf, hq]

/-- Without the word the starters follow a pointer that was never set. -/
theorem xlioStartDownloader_unset (hw : o.word = false) (req : Frame) (response : Bool) (s : Refs) :
    (xlioStartDownloader o req response).run s = (false, ((note .fault).run s).2) := by
  simp [xlioStartDownloader, hw]

theorem xlioStartUploader_unset (hw : o.word = false) (req : Frame) (response : Bool) (s : Refs) :
    (xlioStartUploader o req response).run s = (false, ((xlFree (some req)).run ((note .fault).run s).2).2) := by
  simp [xlioStartUploader, hw]

theorem xlioStartDownloader_spec (hw : o.word = true) (req : Frame) (response : Bool) (s : Refs) :
    ∃ l s' ok, Buffered s s' l ∧ (xlioStartDownloader o req response).run s = (ok, s') ∧
      (ok = true ↔ o.downloads response) := by
  obtain ⟨l, s₁, hl, ⟨hm, rfl, hs₁, hrun⟩ | ⟨hm, hrun⟩⟩ := xlioStreamMaker_spec o s
  · cases response with
    | false =>
      cases hp : o.pipe with
      | true =>
        refine ⟨_, _, true, hl.mark (.pipe req) rfl rfl rfl, ?_, ?_⟩
        · simp [xlioStartDownloader, hw, hrun, hp]
        · simp [Outcome.downloads, hw, hm, hp]
      | false =>
        obtain ⟨l', hl'⟩ := hl.giveUp [0, 1, 2, 3] (by decide) (fun i _ => hs₁ i) (by simp [freed, queued])
        refine ⟨l', _, false, hl', ?_, ?_⟩
        · simp [xlioStartDownloader, hw, hrun, hp]
        · simp [Outcome.downloads, hp]
    | true =>
      obtain ⟨l₂, s₂, hl₂, hrun₂, hs₂, hd₂⟩ := sendStatus_spec o s₁ hs₁
      have hl₃ := hl.trans hl₂ (by simp [freed, queued])
      obtain ⟨l', hl'⟩ := hl₃.giveUp [1, 2, 3] (by decide) (fun i hi => hs₂ i (by rintro rfl; simp at hi))
        (fun i hi => hd₂ i (by rintro rfl; simp at hi))
      cases hsend : o.send with
      | false =>
        refine ⟨l', _, false, hl', ?_, ?_⟩
        · simp [xlioStartDownloader, hw, hrun, hrun₂, hsend]
        · simp [Outcome.downloads, hsend]
      | true =>
        cases hp : o.pipe with
        | true =>
          refine ⟨_, _, true, hl₃.mark (.pipe req) rfl rfl rfl, ?_, ?_⟩
          · simp [xlioStartDownloader, hw, hrun, hrun₂, hsend, hp]
          · simp [Outcome.downloads, hw, hm, hp, hsend]
        | false =>
          refine ⟨l', _, false, hl', ?_, ?_⟩
          · simp [xlioStartDownloader, hw, hrun, hrun₂, hsend, hp]
          · simp [Outcome.downloads, hp]
  · refine ⟨l, s₁, false, hl, ?_, ?_⟩
    · simp [xlioStartDownloader, hw, hrun]
    · simp [Outcome.downloads, hm]

/-- The uploader releases the request however it ends. -/
theorem xlioStartUploader_spec (hw : o.word = true) (req : Frame) (response : Bool) (s : Refs) :
    ∃ l s₁ ok, Buffered s s₁ l ∧ (xlioStartUploader o req response).run s = (ok, ((xlFree (some req)).run s₁).2) ∧
      (ok = true ↔ o.uploads response) := by
  obtain ⟨l, s₁, hl, ⟨hm, rfl, hs₁, hrun⟩ | ⟨hm, hrun⟩⟩ := xlioStreamMaker_spec o s
  · cases response with
    | false =>
      refine ⟨_, _, true, hl, ?_, ?_⟩
      · simp [xlioStartUploader, hw, hrun]
      · simp [Outcome.uploads, hw, hm]
    | true =>
      obtain ⟨l₂, s₂, hl₂, hrun₂, hs₂, hd₂⟩ := sendStatus_spec o s₁ hs₁
      have hl₃ := hl.trans hl₂ (by simp [freed, queued])
      obtain ⟨l', hl'⟩ := hl₃.giveUp [1, 2, 3] (by decide) (fun i hi => hs₂ i (by rintro rfl; simp at hi))
        (fun i hi => hd₂ i (by rintro rfl; simp at hi))
      cases hsend : o.send with
      | false =>
        refine ⟨l', _, false, hl', ?_, ?_⟩
        · simp [xlioStartUploader, hw, hrun, hrun₂, hsend]
        · simp [Outcome.uploads, hsend]
      | true =>
        refine ⟨_, _, true, hl₃, ?_, ?_⟩
        · simp [xlioStartUploader, hw, hrun, hrun₂, hsend]
        · simp [Outcome.uploads, hw, hm, hsend]
  · refine ⟨l, s₁, false, hl, ?_, ?_⟩
    · simp [xlioStartUploader, hw, hrun]
    · simp [Outcome.uploads, hm]

/-! ### The received frame -/

/-- The frame as it was before any reallocation. -/
def Frame.root : Frame → Frame
  | .moved f => f.root
  | f => f

/-- The handler's pointer `p` is the received frame, or a moved one, and then the old pointer is dead. -/
structure Holding (s : Refs) (p : Frame) : Prop where
  count : s.count p = 1
  root : p.root = .received
  old : p = .received ∨ s.count .received = 0

theorem Holding.add {s : Refs} {p : Frame} (h : Holding s p) (a : Add) :
    ∃ p' s' ok, (xlAdd p a).run s = ((p', ok), s') ∧ Holding s' p' ∧ s'.log = s.log ∧ (ok = true ↔ a ≠ .failed) ∧
      (a ≠ .moved → p' = p ∧ s' = s) ∧ (a = .moved → s'.count .received = 0) ∧ s'.count .test = s.count .test := by
  cases a with
  | ok => exact ⟨p, s, true, rfl, h, rfl, by simp, by simp, by simp, rfl⟩
  | failed => exact ⟨p, s, false, rfl, h, rfl, by simp, by simp, by simp, rfl⟩
  | moved =>
    have hne : p.moved ≠ p := by
      intro he
      have := congrArg sizeOf he
      simp at this
    have hdead : (((xlAdd p .moved).run s).2).count .received = 0 := by
      rcases h.old with rfl | hold
      · simp
      · by_cases hp : p = .received
        · simp [hp]
        · simp [Ne.symm hp, hold]
    have htest : Frame.test ≠ p := by
      rintro rfl
      cases h.root
    refine ⟨p.moved, ((xlAdd p .moved).run s).2, true, rfl, ⟨?_, h.root, Or.inr hdead⟩, rfl,
      by simp, by simp, fun _ => hdead, ?_⟩
    · simp [hne, h.count]
    · simp [htest]

/-- Something dead was released, cleared or queued. -/
theorem not_owned {l : List Op} (op : Op) (hop : op ∈ l) (hl : op.live = false) : ¬ Owned l := by
  intro h
  have := h.1 op hop
  rw [hl] at this
  cases this

/-- What `xltp_recv` does after its dispatcher. -/
def finish (r : Bool × Refs) : Refs := if r.1 then r.2 else ((xlFree (some .received)).run r.2).2

theorem finish_dead {s : Refs} (h : s.count .received = 0) : ¬ Owned (finish (false, s)).log := by
  exact not_owned (.free .received false) (by simp [finish, h]) rfl

variable (held kept : Nat)

theorem Holding.congr {s s' : Refs} {p : Frame} (h : Holding s p) (hp : s'.count p = s.count p)
    (hr : s'.count .received = s.count .received) : Holding s' p :=
  ⟨hp.trans h.count, h.root, h.old.imp id hr.trans⟩

theorem Holding.ne_test {s : Refs} {p : Frame} (h : Holding s p) : p ≠ .test := by
  rintro rfl
  cases h.root

theorem echoAnswer_owned {s : Refs} {p : Frame} (h : Holding s p) (hs : s.log = [.clear .received true]) :
    ∃ s', (echoAnswer o p).run s = (true, s') ∧ (Owned s'.log ↔ o.test = true) := by
  have htest := h.ne_test
  cases ht : o.test with
  | true =>
    have h₁ : Holding ((xlCreator .test).run s).2 p := h.congr (by simp [htest]) (by simp)
    obtain ⟨p₂, s₂, ok₂, hrun₂, hp₂, hlog₂, -, -, -, hc₂⟩ := h₁.add o.obj
    have hone : s₂.count .test = 1 := by rw [hc₂]; simp
    have h₃ : Holding ((xlFree (some .test)).run s₂).2 p₂ := hp₂.congr (by simp [hp₂.ne_test]) (by simp)
    obtain ⟨p₄, s₄, ok₄, hrun₄, hp₄, hlog₄, -⟩ := h₃.add o.code
    have hlog : s₄.log = [.clear .received true, .free .test true] := by
      rw [hlog₄]
      simp [hone, hlog₂, hs]
    refine ⟨_, by simp only [echoAnswer, ht, if_true, run_bind, run_pure, hrun₂, hrun₄]; rfl, ?_⟩
    have hne := hp₄.ne_test
    simp only [xltpSendRes, run_queue, hp₄.count]
    cases o.disconnect <;> simp [hlog, Owned, Op.live, queued, freed, hne]
  | false =>
    have h₁ : Holding ((note .fault).run s).2 p := h.congr rfl rfl
    obtain ⟨p₂, s₂, ok₂, hrun₂, hp₂, hlog₂, -⟩ := h₁.add o.obj
    obtain ⟨p₄, s₄, ok₄, hrun₄, hp₄, hlog₄, -⟩ := hp₂.add o.code
    have hlog : s₄.log = [.clear .received true, .fault] := by
      rw [hlog₄, hlog₂]
      simp [hs]
    have hrun : (echoAnswer o p).run s = (true, ((xltpSendRes o p₄).run s₄).2) := by
      simp only [echoAnswer, ht, Bool.false_eq_true, if_false, run_bind, run_pure, hrun₂, run_xlFree_none, hrun₄]
    refine ⟨_, hrun, ?_⟩
    simp only [xltpSendRes, run_queue, Bool.false_eq_true, iff_false]
    apply not_owned .fault _ rfl
    cases o.disconnect <;> simp [hlog]

theorem apiEcho_owned : Owned (finish ((apiEcho o .received).run (Refs.start held kept))).log ↔ o.ReqFine .echo := by
  have hclear : Holding ((xlClear .received).run (Refs.start held kept)).2 .received := ⟨rfl, rfl, Or.inl rfl⟩
  obtain ⟨p₁, s₁, ok₁, hrun₁, hp₁, hlog₁, hok₁, hstay₁, hmove₁, -⟩ := hclear.add o.ip
  obtain ⟨p₂, s₂, ok₂, hrun₂, hp₂, hlog₂, hok₂, hstay₂, -⟩ := hp₁.add o.port
  have hsum : (apiEcho o .received).run (Refs.start held kept) =
      if ok₁ = false then (false, s₁) else if ok₂ = false then (false, s₂) else (echoAnswer o p₂).run s₂ := by
    simp only [apiEcho, run_bind, hrun₁]
    cases ok₁ with
    | false => rfl
    | true =>
      simp only [Bool.not_true, Bool.false_eq_true, if_false, run_bind, hrun₂, reduceCtorEq]
      cases ok₂ <;> rfl
  have hlive : o.ip ≠ .moved → s₁ = ((xlClear .received).run (Refs.start held kept)).2 := fun h => (hstay₁ h).2
  rw [hsum, Outcome.ReqFine]
  cases ok₁ with
  | false =>
    have hip : o.ip = .failed := by simpa using hok₁
    rw [if_pos rfl, hlive (by simp [hip])]
    simp [hip, finish, Refs.start, Owned, Op.live, queued, freed]
  | true =>
    cases ok₂ with
    | false =>
      have hport : o.port = .failed := by simpa using hok₂
      rw [if_neg (by simp), if_pos rfl, (hstay₂ (by simp [hport])).2]
      by_cases hip : o.ip = .moved
      · simp only [hip, hport, and_self, not_true_eq_false, false_and, iff_false]
        exact finish_dead (hmove₁ hip)
      · rw [hlive hip]
        simp [hip, hport, finish, Refs.start, Owned, Op.live, queued, freed]
    | true =>
      have hip : o.ip ≠ .failed := hok₁.mp rfl
      have hport : o.port ≠ .failed := hok₂.mp rfl
      obtain ⟨s', hrun, howned⟩ := echoAnswer_owned o hp₂ (by rw [hlog₂, hlog₁]; rfl)
      rw [if_neg (by simp), if_neg (by simp), hrun]
      simp [hip, hport, finish, howned]

/-- A handler that releases the frame and fails lets `xltp_recv` release it again. -/
theorem Holding.free_dead {s : Refs} {p : Frame} (h : Holding s p) :
    ¬ Owned (finish (false, ((xlFree (some p)).run s).2)).log := by
  apply finish_dead
  by_cases hp : p = .received
  · subst hp
    simp [h.count]
  · simpa [Ne.symm hp] using h.old.resolve_left hp

theorem apiBoot_owned : Owned (finish ((apiBoot o .received).run (Refs.start held kept))).log ↔ o.ReqFine .boot := by
  have hclear : Holding ((xlClear .received).run (Refs.start held kept)).2 .received := ⟨rfl, rfl, Or.inl rfl⟩
  obtain ⟨p₁, s₁, ok₁, hrun₁, hp₁, hlog₁, hok₁, -⟩ := hclear.add o.ip
  obtain ⟨p₂, s₂, ok₂, hrun₂, hp₂, hlog₂, hok₂, -⟩ := hp₁.add o.port
  obtain ⟨p₃, s₃, ok₃, hrun₃, hp₃, hlog₃, hok₃, -⟩ := hp₂.add o.uuid
  obtain ⟨p₄, s₄, ok₄, hrun₄, hp₄, hlog₄, hok₄, -⟩ := hp₃.add o.code
  simp only [run_xlClear] at hrun₁
  simp only [Outcome.ReqFine, ← hok₁, ← hok₂, ← hok₃, ← hok₄]
  cases ok₁ with
  | false => simpa [apiBoot, hrun₁] using hp₁.free_dead
  | true =>
    cases ok₂ with
    | false => simpa [apiBoot, hrun₁, hrun₂] using hp₂.free_dead
    | true =>
      cases ok₃ with
      | false => simpa [apiBoot, hrun₁, hrun₂, hrun₃] using hp₃.free_dead
      | true =>
        cases ok₄ with
        | false => simpa [apiBoot, hrun₁, hrun₂, hrun₃, hrun₄] using hp₄.free_dead
        | true =>
          have hlog : s₄.log = [.clear .received true] := by rw [hlog₄, hlog₃, hlog₂, hlog₁]; rfl
          cases hd : o.disconnect <;>
            simp [apiBoot, hrun₁, hrun₂, hrun₃, hrun₄, finish, xltpSendRes, hd, hlog, hp₄.count, Owned, Op.live, queued,
              freed]

/-- After the buffers of a stream, other frames are owned as they would be without. -/
theorem Buffered.owned_append {s s' : Refs} {l l' : List Op} (h : Buffered s s' l) (hl : Owned l')
    (hf : ∀ f, f ∈ freed l' ∨ f ∈ queued l' → f.isBuf = false) : Owned (l ++ l') := by
  apply h.owned.append hl
  intro f hf' hf''
  have := h.bufs f hf'
  rw [hf f hf''] at this
  cases this

theorem refuse_owned {s : Refs} {l : List Op} (h : Buffered (Refs.start held kept) s l) :
    Owned (finish ((refuse o .received).run s)).log ↔ o.code ≠ .moved ∧ o.disconnect = false := by
  have hone : s.count .received = 1 := h.count .received rfl
  have hlog : s.log = l := h.log
  have hclear : Holding ((xlClear .received).run s).2 .received := ⟨hone, rfl, Or.inl rfl⟩
  obtain ⟨p₁, s₁, ok₁, hrun₁, hp₁, hlog₁, -, hstay₁, hmove₁, -⟩ := hclear.add o.code
  simp only [run_xlClear] at hrun₁ hstay₁ hlog₁
  have hrun : (refuse o .received).run s = (false, ((xmsgerQueue p₁ o.disconnect).run s₁).2) := by
    simp only [refuse, run_bind, run_xlClear, hrun₁, xltpSendRes, run_pure]
  rw [hrun]
  by_cases hc : o.code = .moved
  · simp only [hc, ne_eq, not_true_eq_false, false_and, iff_false]
    apply finish_dead
    cases o.disconnect <;> simpa using hmove₁ hc
  · obtain ⟨rfl, rfl⟩ := hstay₁ hc
    cases hd : o.disconnect with
    | true =>
      simp only [hc, ne_eq, not_false_eq_true, Bool.true_eq_false, and_false, iff_false]
      intro howned
      refine howned.2 .received ?_ ?_
      · simp [finish, queued]
      · simp [finish, freed]
    | false =>
      simp only [hc, ne_eq, not_false_eq_true, and_self, iff_true]
      have heq : (finish (false, ((xmsgerQueue .received false).run
          ({ s with log := s.log ++ [.clear .received (decide (0 < s.count .received))] })).2)).log =
          l ++ [.clear .received true, .free .received true] := by
        simp [finish, hone, hlog]
      rw [heq]
      exact h.owned_append (by decide) (by simp [freed, queued, Frame.isBuf])

theorem apiPut_owned : Owned (finish ((apiPut o .received).run (Refs.start held kept))).log ↔ o.ReqFine .put := by
  cases hw : o.word with
  | false =>
    have hnot : ¬ o.ReqFine .put := by simp [Outcome.ReqFine, Outcome.downloads, hw]
    simp only [hnot, iff_false, apiPut, run_bind, xlioStartDownloader_unset o hw]
    apply not_owned .fault _ rfl
    cases hc : o.code <;> cases hd : o.disconnect <;> simp [refuse, hc, hd, xltpSendRes, finish]
  | true =>
    obtain ⟨l, s, ok, hl, hrun, hok⟩ := xlioStartDownloader_spec o hw .received true (Refs.start held kept)
    simp only [Outcome.ReqFine, hw, true_and, ← hok, apiPut, run_bind, hrun]
    cases ok with
    | true =>
      have hlog : s.log = l := hl.log
      simp [finish, hlog, hl.owned]
    | false =>
      simp only [Bool.false_eq_true, if_false, false_or]
      exact refuse_owned o held kept hl

/-- The frame is cleared after its last reference has been given up. -/
theorem refuse_dead {s : Refs} (hs : s.count .received = 0) :
    ¬ Owned (finish ((refuse o .received).run s)).log := by
  apply not_owned (.clear .received false) _ rfl
  cases hc : o.code <;> cases hd : o.disconnect <;> simp [refuse, hc, hd, hs, xltpSendRes, finish]

theorem apiGet_owned : Owned (finish ((apiGet o .received).run (Refs.start held kept))).log ↔ o.ReqFine .get := by
  cases hw : o.word with
  | false =>
    have hnot : ¬ o.ReqFine .get := by simp [Outcome.ReqFine, Outcome.uploads, hw]
    simp only [hnot, iff_false, apiGet, run_bind, xlioStartUploader_unset o hw]
    exact refuse_dead o (by simp [Refs.start])
  | true =>
    obtain ⟨l, s, ok, hl, hrun, hok⟩ := xlioStartUploader_spec o hw .received true (Refs.start held kept)
    have hone : s.count .received = 1 := hl.count .received rfl
    have hlog : s.log = l := hl.log
    simp only [Outcome.ReqFine, ← hok, apiGet, run_bind, hrun]
    cases ok with
    | true =>
      simp only [if_true, run_pure, finish, iff_true, run_xlFree_some, hone, hlog]
      exact hl.owned_append (by decide) (by simp [freed, queued, Frame.isBuf])
    | false =>
      simp only [Bool.false_eq_true, if_false, iff_false]
      exact refuse_dead o (by simp [hone])

/-! ### Answers -/

theorem resPrint_run : (resPrint .received).run (Refs.start held kept) =
    (true, ⟨Function.update (Refs.start held kept).count .received 0, [.free .received true]⟩) := rfl

theorem resStream_kept (start : Frame → M Bool) (hs : o.stored = true) {ok : Bool} {s₁ : Refs}
    (hstart : (start .kept).run (Refs.start held kept) = (ok, s₁)) (hone : s₁.count .received = 1) :
    ∃ s, (resStream start o .received).run (Refs.start held kept) = (ok, s) ∧ s.count .received = 0 ∧
      (ok = true → s.log = s₁.log ++ [.free .received true]) := by
  cases ok with
  | true =>
    refine ⟨((xlFree (some .received)).run s₁).2, ?_, by simp [hone], by simp [hone]⟩
    simp [resStream, hs, hstart]
  | false =>
    refine ⟨((xlFree (some .kept)).run ((xlFree (some .request)).run ((xlFree (some .received)).run s₁).2).2).2, ?_,
      by simp [hone], by simp⟩
    simp [resStream, hs, hstart]

theorem resStream_empty (start : Frame → M Bool) (hs : o.stored = false) :
    ∃ s, (resStream start o .received).run (Refs.start held kept) = (false, s) ∧ s.count .received = 0 := by
  refine ⟨((xlFree (some .request)).run ((xlFree (some .received)).run (Refs.start held kept)).2).2, ?_,
    by simp [Refs.start]⟩
  simp [resStream, hs]

theorem resPut_spec : ∃ ok s, (resPut o .received).run (Refs.start held kept) = (ok, s) ∧ s.count .received = 0 ∧
    (ok = true ∧ Owned s.log ↔ o.ResFine kept .put) := by
  rw [resPut, Outcome.ResFine]
  cases hs : o.stored with
  | false =>
    obtain ⟨s, hrun, hdead⟩ := resStream_empty o held kept (xlioStartUploader o · false) hs
    exact ⟨false, s, hrun, hdead, by simp⟩
  | true =>
    cases hw : o.word with
    | false =>
      obtain ⟨s, hrun, hdead, -⟩ := resStream_kept o held kept (xlioStartUploader o · false) hs
        (xlioStartUploader_unset o hw .kept false _) (by simp [Refs.start])
      exact ⟨false, s, hrun, hdead, by simp [Outcome.uploads, hw]⟩
    | true =>
      obtain ⟨l, s₁, ok, hl, hrun₁, hok⟩ := xlioStartUploader_spec o hw .kept false (Refs.start held kept)
      have hone : s₁.count .received = 1 := hl.count .received rfl
      have hkept : s₁.count .kept = kept := hl.count .kept rfl
      obtain ⟨s, hrun, hdead, hlog⟩ := resStream_kept o held kept (xlioStartUploader o · false) hs hrun₁
        (by simp [hone])
      refine ⟨ok, s, hrun, hdead, ?_⟩
      rw [← hok]
      constructor
      · rintro ⟨rfl, howned⟩
        refine ⟨rfl, ?_, rfl⟩
        by_contra hzero
        refine not_owned (.free .kept false) ?_ rfl howned
        rw [hlog rfl]
        simp [hkept, hzero]
      · rintro ⟨-, hpos, rfl⟩
        refine ⟨rfl, ?_⟩
        have heq : s.log = l ++ [.free .kept true, .free .received true] := by
          rw [hlog rfl]
          simp [hkept, hpos, show s₁.log = l from hl.log]
        rw [heq]
        exact hl.owned_append (by decide) (by simp [freed, queued, Frame.isBuf])

theorem resGet_spec : ∃ ok s, (resGet o .received).run (Refs.start held kept) = (ok, s) ∧ s.count .received = 0 ∧
    (ok = true ∧ Owned s.log ↔ o.ResFine kept .get) := by
  rw [resGet, Outcome.ResFine]
  cases hs : o.stored with
  | false =>
    obtain ⟨s, hrun, hdead⟩ := resStream_empty o held kept (xlioStartDownloader o · false) hs
    exact ⟨false, s, hrun, hdead, by simp⟩
  | true =>
    cases hw : o.word with
    | false =>
      obtain ⟨s, hrun, hdead, -⟩ := resStream_kept o held kept (xlioStartDownloader o · false) hs
        (xlioStartDownloader_unset o hw .kept false _) (by simp [Refs.start])
      exact ⟨false, s, hrun, hdead, by simp [Outcome.downloads, hw]⟩
    | true =>
      obtain ⟨l, s₁, ok, hl, hrun₁, hok⟩ := xlioStartDownloader_spec o hw .kept false (Refs.start held kept)
      obtain ⟨s, hrun, hdead, hlog⟩ := resStream_kept o held kept (xlioStartDownloader o · false) hs hrun₁
        (hl.count .received rfl)
      refine ⟨ok, s, hrun, hdead, ?_⟩
      rw [← hok]
      constructor
      · rintro ⟨rfl, -⟩
        exact ⟨rfl, rfl⟩
      · rintro ⟨-, rfl⟩
        refine ⟨rfl, ?_⟩
        rw [hlog rfl, show s₁.log = l from hl.log]
        exact hl.owned_append (by decide) (by simp [freed, queued, Frame.isBuf])

/-- However the callback ends, it has released the frame. -/
theorem xltpRecvMsg_spec {a : Api} (ha : o.callback = some a) :
    ∃ ok s, (xltpRecvMsg o .received).run (Refs.start held kept) = (ok, s) ∧ s.count .received = 0 ∧
      (ok = true ∧ Owned s.log ↔ o.ResFine kept a) := by
  rw [xltpRecvMsg, ha]
  have hprint : ∃ ok s, (resPrint .received).run (Refs.start held kept) = (ok, s) ∧ s.count .received = 0 ∧
      (ok = true ∧ Owned s.log ↔ True) :=
    ⟨_, _, resPrint_run held kept, by simp, by simp only [true_and, iff_true]; decide⟩
  cases a with
  | echo => exact hprint
  | boot => exact hprint
  | put => exact resPut_spec o held kept
  | get => exact resGet_spec o held kept

/-! ### Dispatch -/

theorem xltpRecv_run (type : UInt16) (s : Refs) : ((xltpRecv o type).run s).2 =
    if o.stream then finish (o.write, if o.write then ((note (.pipe .received)).run s).2 else s)
    else if type = xpackTypeReq then finish ((xltpRecvReq o .received).run s)
    else if type = xpackTypeMsg then finish ((xltpRecvMsg o .received).run s)
    else if type = xpackTypeRes then finish ((xltpRecvRes o .received).run s)
    else s := by
  have hend : ∀ r : Bool × Refs, ((if r.1 then pure true else do
      let _ ← xlFree (some .received)
      return false : M Bool).run r.2).2 = finish r := by
    rintro ⟨ok, s⟩
    cases ok <;> rfl
  rw [xltpRecv]
  split
  · cases o.write <;> rfl
  · split
    · exact hend ((xltpRecvReq o .received).run s)
    · split
      · exact hend ((xltpRecvMsg o .received).run s)
      · split
        · exact hend ((xltpRecvRes o .received).run s)
        · rfl

/-- The frame is untouched and goes back to `xltp_recv`. -/
theorem finish_untouched : Owned (finish (false, Refs.start held kept)).log := by
  simp [finish, Refs.start, Owned, Op.live, queued]

theorem xltpRecvRes_run : (xltpRecvRes o .received).run (Refs.start held kept) =
    let r := if o.filled then (xltpRecvMsg o .received).run (Refs.start held kept) else (false, Refs.start held kept)
    if o.flush then (true, if r.1 then r.2 else ((xlFree (some .received)).run r.2).2) else (false, r.2) := by
  cases hf : o.filled <;> cases hl : o.flush <;> simp [xltpRecvRes, hf, hl]
  cases ((xltpRecvMsg o .received).run (Refs.start held kept)).1 <;> rfl

theorem xltpRecvRes_owned : Owned (finish ((xltpRecvRes o .received).run (Refs.start held kept))).log ↔
    (o.filled = true → ∀ a ∈ o.callback, o.ResFine kept a ∧ o.flush = true) := by
  have huntouched := finish_untouched held kept
  rw [xltpRecvRes_run]
  cases hf : o.filled with
  | false =>
    simp only [Bool.false_eq_true, if_false, false_imp_iff, iff_true]
    cases o.flush <;> simpa [finish] using huntouched
  | true =>
    simp only [if_true, true_imp_iff]
    cases hc : o.callback with
    | none =>
      have hnone : (xltpRecvMsg o .received).run (Refs.start held kept) = (false, Refs.start held kept) := by
        rw [xltpRecvMsg, hc]
        rfl
      rw [hnone]
      cases o.flush <;> simpa [finish] using huntouched
    | some a =>
      obtain ⟨ok, s, hrun, hdead, hfine⟩ := xltpRecvMsg_spec o held kept hc
      have hdead' := finish_dead hdead
      simp only [hrun, Option.mem_def, Option.some.injEq, forall_eq', ← hfine]
      cases o.flush with
      | false => simpa using hdead'
      | true =>
        cases ok with
        | false => simpa [finish] using hdead'
        | true => simp [finish]

/-- Frames are released once, and never while they are queued, exactly in these cases. -/
theorem frames_owned (type : UInt16) :
    Owned ((xltpRecv o type).run (Refs.start held kept)).2.log ↔ o.Fine kept type := by
  have huntouched := finish_untouched held kept
  rw [xltpRecv_run, Outcome.Fine]
  cases hs : o.stream with
  | true => cases hw : o.write <;> simp [finish, Refs.start, Owned, Op.live, queued, freed]
  | false =>
    simp only [Bool.false_eq_true, if_false, false_or]
    split
    · rw [xltpRecvReq]
      cases ha : o.api with
      | none => simpa using huntouched
      | some a =>
        simp only [Option.mem_def, Option.some.injEq, forall_eq']
        cases a with
        | echo => exact apiEcho_owned o held kept
        | boot => exact apiBoot_owned o held kept
        | put => exact apiPut_owned o held kept
        | get => exact apiGet_owned o held kept
    · split
      · cases hc : o.callback with
        | none =>
          rw [xltpRecvMsg, hc]
          simpa using huntouched
        | some a =>
          obtain ⟨ok, s, hrun, hdead, hfine⟩ := xltpRecvMsg_spec o held kept hc
          have hdead' := finish_dead hdead
          simp only [hrun, Option.mem_def, Option.some.injEq, forall_eq', ← hfine]
          cases ok with
          | false => simpa using hdead'
          | true => simp [finish]
      · split
        · exact xltpRecvRes_owned o held kept
        · simp [Refs.start, Owned, queued]

/-- A `put` request for a directory that cannot be made; everything else succeeds. -/
def putRefused : Outcome where
  stream := false
  write := true
  api := some .put
  callback := none
  stored := false
  filled := true
  ip := .ok
  port := .ok
  uuid := .ok
  obj := .ok
  code := .ok
  test := true
  word := true
  maker := some noneMade
  status := .ok
  send := true
  pipe := true
  disconnect := true
  flush := true

/-- The refusal is queued for sending and then released. -/
theorem frames_queued_and_freed : ¬ Owned ((xltpRecv putRefused xpackTypeReq).run (Refs.start 0 0)).2.log := by decide

end Wenas.Xltp
