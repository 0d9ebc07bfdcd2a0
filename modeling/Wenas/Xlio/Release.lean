import Wenas.Xlio.Frames

/-!
# The release of a stream

What an iteration of `xlio_loop` reads and frees: the stream, and the frames that are in its slots or held by it. A check
can pass or fail at every call of a handler.
-/
namespace Wenas.Xlio
open Wenas.Machine

inductive PackType where
  | req
  | msg
  | res
  deriving DecidableEq

inductive Api where
  | reqList
  | resList
  | downloadList
  | uploadList
  | other
  deriving DecidableEq

/-- A message of the peer: where it is, and what `xlio_recv_frame` finds in it. A list has entries or not. -/
structure Mail where
  name : Nat
  type : PackType
  api : Option Api
  size : Bool
  list : Option Bool

/-- What the checks of a handler give: `list_pos < list_size`, `list_pos = list_size`, the pieces or entries that are
taken, and one result for each call with a frame in hand. `res` is what `msg->type` reads at the end. -/
structure Checks where
  more : Bool
  equal : Bool
  taken : Bool
  calls : List Bool
  res : Bool

/-- The pointers of a stream. `refs` counts the holds of a message; a frame in a slot has one. -/
structure Store where
  upload : Bool
  buf : Msgbuf
  uploadList : Option Nat
  recvFrame : Option Mail
  refs : Nat → Nat

namespace Store

def hold (s : Store) (n : Nat) : Store := { s with refs := Function.update s.refs n (s.refs n + 1) }

/-- `xl_free` of a message that no pointer of the stream is cleared for. -/
def drop (s : Store) (n : Nat) : Store := { s with refs := Function.update s.refs n (s.refs n - 1) }

/-- A message that was made for the stream has one holder. -/
def arrive (s : Store) (n : Nat) : Store := { s with refs := Function.update s.refs n 1 }

/-- A frame is taken and sent, or a check fails with it in hand. -/
def call (s : Store) (ok : Bool) : Store × Bool :=
  match s.buf.take with
  | none => (s, false)
  | some (f, buf) => if ok then ({ s with buf := buf }, true) else ({ s with buf := buf.resave f }, false)

/-- The loop of the `DOWNLOAD_LIST` branch, up to the end of the list. -/
def sendFrames : List Bool → Store → Store × Bool
  | [], s => (s, true)
  | ok :: calls, s =>
    if s.buf.readable = 0 then (s, true)
    else
      match s.call ok with
      | (s, false) => (s, false)
      | (s, true) => sendFrames calls s

/-- The call with one frame in hand. -/
def Checks.first (c : Checks) : Bool := c.calls.headD true

/-- `xlio_recv_frame`. -/
def xlioRecvFrame (s : Store) (m : Mail) (c : Checks) : Store × Bool :=
  match m.api with
  | none => (s, false)
  | some .reqList => s.call (Checks.first c)
  | some .resList => if m.list = none then (s, false) else s.call (Checks.first c)
  | some .downloadList =>
    if s.uploadList ≠ none then (s, false)
    else
      let s := { s with uploadList := some m.name }
      if m.size = false then (s, false)
      else
        match m.list with
        | none => (s, false)
        | some false => (s, true)
        | some true => (s.hold m.name).sendFrames c.calls
  | some .uploadList =>
    match m.list with
    | none => (s, false)
    | some false => if c.equal then s.call (Checks.first c) else (s, false)
    | some true => (s, c.taken)
  | some .other => (s, true)

/-- `xl_free(&stream->upload_list)`. -/
def freeUploadList (s : Store) : Store :=
  match s.uploadList with
  | none => s
  | some n => { s.drop n with uploadList := if s.refs n = 1 then none else some n }

/-- `xlio_upload_list`. -/
def xlioUploadList (s : Store) (c : Checks) : Store × Bool :=
  if s.uploadList = none then (s, true)
  else if c.more then s.call (Checks.first c)
  else if c.equal = false then (s, false)
  else
    match s.call (Checks.first c) with
    | (s, false) => (s, false)
    | (s, true) => (s.freeUploadList, true)

/-- The frames that `xlio_stream_free` frees: those in the slots, and `upload_list` with its last hold. -/
def released (s : Store) : List Nat :=
  ((List.range 4).filterMap fun i => (s.buf.buf i).map Frame.name) ++
    (s.uploadList.filter fun n => s.refs n = 1).toList

/-- `xl_free(&stream->recv_frame)`. -/
def freeRecvFrame (s : Store) (m : Mail) : Store :=
  { s.drop m.name with recvFrame := if s.refs m.name = 1 then none else some m }

end Store

/-- A read or write by way of the stream's pointer or of a frame, and `xlio_stream_free` with the frames it frees. -/
inductive Access where
  | stream
  | frame (name : Nat)
  | free (frames : List Nat)
  deriving DecidableEq

/-- Once the stream is freed nothing of it is used or freed again. -/
def Tidy : List Access → Prop
  | [] => True
  | .free frames :: rest =>
    (∀ a ∈ rest, a ≠ .stream ∧ (∀ fs, a ≠ .free fs) ∧ ∀ n ∈ frames, a ≠ .frame n) ∧ Tidy rest
  | .stream :: rest => Tidy rest
  | .frame _ :: rest => Tidy rest

namespace Store

/-- `XMSG_FLAG_RECV`: the stream that is left, and what was used. -/
def recv (s : Store) (m : Mail) (c : Checks) : Option Store × List Access :=
  let s := s.arrive m.name
  match m.type with
  | .req => (some (s.drop m.name), [.frame m.name, .frame m.name])
  | .res => (none, [.frame m.name, .free s.released, .frame m.name])
  | .msg =>
    if s.buf.readable = 0 then
      (some (({ s.hold m.name with recvFrame := some m } : Store).drop m.name), [.frame m.name, .stream, .frame m.name])
    else
      match s.xlioRecvFrame m c with
      | (s, false) => (none, [.frame m.name, .stream, .free s.released, .frame m.name])
      | (s, true) => (some (s.drop m.name), [.frame m.name, .stream, .frame m.name])

/-- The last check of a returning frame. -/
def finish (s : Store) (f : Frame) (res : Bool) (used : List Access) : Option Store × List Access :=
  if res then (none, used ++ [.frame f.name, .free s.released]) else (some s, used ++ [.frame f.name])

/-- `XMSG_FLAG_BACK`. With the stream freed, the pointer to it is `NULL` where `recv_frame` is freed, and a second
`xlio_stream_free` does nothing. -/
def back (s : Store) (f : Frame) (c : Checks) : Option Store × List Access :=
  let s := { s with buf := s.buf.resave f }
  match s.recvFrame with
  | some m =>
    match s.xlioRecvFrame m c with
    | (s, false) =>
      (none, [.frame f.name, .stream, .frame m.name, .free s.released, .stream, .frame f.name])
    | (s, true) => (s.freeRecvFrame m).finish f c.res [.frame f.name, .stream, .frame m.name, .stream, .frame m.name]
  | none =>
    if s.upload then
      match s.xlioUploadList c with
      | (s, false) => (none, [.frame f.name, .stream, .free s.released, .frame f.name])
      | (s, true) => s.finish f c.res [.frame f.name, .stream]
    else s.finish f c.res [.frame f.name, .stream]

/-- `xlio_post_download` with its request; a frame that cannot be sent is lost. -/
def postDownload (s : Store) (n : Nat) (c : Checks) : Option Store × List Access :=
  if s.buf.readable = 0 then (some s, [.frame n, .stream])
  else
    match s.buf.take with
    | none => (some s, [.frame n, .stream])
    | some (_, buf) =>
      (some { s with buf := buf }, [.frame n, .stream] ++ if Checks.first c then [.frame n] else [])

/-- `xlio_post_close`. -/
def postClose (s : Store) (n : Nat) : Option Store × List Access :=
  (none, [.frame n, .free (s.arrive n).released, .frame n])

end Store

inductive LoopMsg where
  | recv (m : Mail) (c : Checks)
  | back (f : Frame) (c : Checks)
  | postDownload (name : Nat) (c : Checks)
  | postClose (name : Nat)

def Store.iterate (s : Store) : LoopMsg → Option Store × List Access
  | .recv m c => s.recv m c
  | .back f c => s.back f c
  | .postDownload n c => s.postDownload n c
  | .postClose n => s.postClose n

/-- The streams by their channels; a channel without one drops its messages. -/
def loopStep (w : Nat → Option Store) (e : Nat × LoopMsg) : Nat → Option Store :=
  match w e.1 with
  | none => w
  | some s => Function.update w e.1 (s.iterate e.2).1

/-- What the iteration uses. -/
def loopUses (w : Nat → Option Store) (e : Nat × LoopMsg) : List Access :=
  match w e.1 with
  | none => []
  | some s => (s.iterate e.2).2

/-- A message is not one of the frames in the slots, and a frame comes back to the slot it was taken from. -/
def Store.Own (s : Store) : LoopMsg → Prop
  | .recv m _ => ∀ i f, s.buf.buf i = some f → f.name ≠ m.name
  | .back f _ => f.id < 4
  | .postDownload _ _ => True
  | .postClose n => ∀ i f, s.buf.buf i = some f → f.name ≠ n

/-- A `DOWNLOAD_LIST` that is stored before it is found to have no size or no list. -/
def Mail.Broken (m : Mail) (s : Store) : Prop :=
  m.api = some .downloadList ∧ s.uploadList = none ∧ (m.size = false ∨ m.list = none)

/-- No handler fails for a returning frame. When a message releases the stream, `upload_list` does not point to it: it
was not left behind by a list without entries, which is stored without a hold, and the message is not a broken
`DOWNLOAD_LIST`. -/
def Store.Sound (s : Store) : LoopMsg → Prop
  | .recv m c =>
    m.type = .res ∨ m.type = .msg ∧ s.buf.readable ≠ 0 ∧ ((s.arrive m.name).xlioRecvFrame m c).2 = false →
      s.uploadList ≠ some m.name ∧ (m.type = .msg → ¬ m.Broken s)
  | .back f c =>
    match s.recvFrame with
    | some m => ({ s with buf := s.buf.resave f }.xlioRecvFrame m c).2 = true
    | none => s.upload = true → ({ s with buf := s.buf.resave f }.xlioUploadList c).2 = true
  | .postDownload _ _ => True
  | .postClose n => s.uploadList ≠ some n

namespace Store

variable {s t : Store} {n : Nat}

theorem mem_released : n ∈ s.released ↔
    (∃ i f, i < 4 ∧ s.buf.buf i = some f ∧ f.name = n) ∨ s.uploadList = some n ∧ s.refs n = 1 := by
  unfold released
  rw [List.mem_append, List.mem_filterMap]
  refine or_congr ?_ ?_
  · simp only [List.mem_range, Option.map_eq_some_iff]
    exact ⟨fun ⟨i, hi, f, hf, hn⟩ => ⟨i, f, hi, hf, hn⟩, fun ⟨i, f, hi, hf, hn⟩ => ⟨i, hi, f, hf, hn⟩⟩
  · simp [Option.mem_toList, Option.filter_eq_some_iff]

/-- What a handler leaves as it was: the holds, and the frames in the slots are no others. -/
structure Keeps (s t : Store) : Prop where
  uploadList : t.uploadList = s.uploadList
  refs : t.refs = s.refs
  names : ∀ i f, t.buf.buf i = some f → ∃ j g, s.buf.buf j = some g ∧ g.name = f.name

theorem Keeps.refl (s : Store) : Keeps s s := ⟨rfl, rfl, fun i f hf => ⟨i, f, hf, rfl⟩⟩

theorem Keeps.trans {u : Store} (h : Keeps s t) (h' : Keeps t u) : Keeps s u := by
  refine ⟨h'.uploadList.trans h.uploadList, h'.refs.trans h.refs, fun i f hf => ?_⟩
  obtain ⟨j, g, hg, hname⟩ := h'.names i f hf
  obtain ⟨k, g', hg', hname'⟩ := h.names j g hg
  exact ⟨k, g', hg', hname'.trans hname⟩

theorem call_keeps (s : Store) (ok : Bool) : Keeps s (s.call ok).1 := by
  unfold call
  cases htake : s.buf.take with
  | none => exact .refl s
  | some r =>
    obtain ⟨f, b⟩ := r
    obtain ⟨g, hg, heq⟩ := Option.map_eq_some_iff.mp htake
    obtain ⟨rfl, rfl⟩ := Prod.mk.inj heq
    have hold : ∀ i f, Function.update s.buf.buf s.buf.rslot none i = some f → s.buf.buf i = some f := by
      intro i f hf
      rw [Function.update_apply] at hf
      split at hf
      · cases hf
      · exact hf
    cases ok with
    | true => exact ⟨rfl, rfl, fun i f hf => ⟨i, f, hold i f hf, rfl⟩⟩
    | false =>
      dsimp only
      rw [if_neg Bool.false_ne_true]
      refine ⟨rfl, rfl, fun i f hf => ?_⟩
      rw [Msgbuf.resave_buf] at hf
      split at hf
      · cases hf
        exact ⟨_, g, hg, rfl⟩
      · exact ⟨i, f, hold i f hf, rfl⟩

theorem sendFrames_keeps (calls : List Bool) (s : Store) : Keeps s (s.sendFrames calls).1 := by
  induction calls generalizing s with
  | nil => exact .refl s
  | cons ok calls ih =>
    rw [sendFrames]
    split
    · exact .refl s
    · have hcall := call_keeps s ok
      split
      · rename_i t ht
        rw [ht] at hcall
        exact hcall
      · rename_i t ht
        rw [ht] at hcall
        exact hcall.trans (ih t)

/-- What `xlio_recv_frame` does with the holds: a broken `DOWNLOAD_LIST` is stored without one. -/
theorem recv_keeps {m : Mail} {c : Checks} (hrefs : s.refs m.name = 1) (hfail : (s.xlioRecvFrame m c).2 = false) :
    (∀ i f, (s.xlioRecvFrame m c).1.buf.buf i = some f → ∃ j g, s.buf.buf j = some g ∧ g.name = f.name) ∧
      ((s.xlioRecvFrame m c).1.uploadList = some m.name ∧ (s.xlioRecvFrame m c).1.refs m.name = 1 ↔
        s.uploadList = some m.name ∨ m.Broken s) := by
  have hkeeps : ∀ {t : Store}, Keeps s t → ¬ m.Broken s →
      (∀ i f, t.buf.buf i = some f → ∃ j g, s.buf.buf j = some g ∧ g.name = f.name) ∧
        (t.uploadList = some m.name ∧ t.refs m.name = 1 ↔ s.uploadList = some m.name ∨ m.Broken s) := by
    intro t h hbroken
    refine ⟨h.names, ?_⟩
    rw [h.uploadList, h.refs]
    simp [hrefs, hbroken]
  have hother : m.api ≠ some .downloadList → ¬ m.Broken s := fun hne hbroken => hne hbroken.1
  unfold xlioRecvFrame at *
  split at hfail
  · rename_i hapi
    exact hkeeps (.refl s) (hother (by simp [hapi]))
  · rename_i hapi
    exact hkeeps (call_keeps s _) (hother (by simp [hapi]))
  · rename_i hapi
    have hnot := hother (by simp [hapi])
    split
    · exact hkeeps (.refl s) hnot
    · exact hkeeps (call_keeps s _) hnot
  · rename_i hapi
    by_cases hheld : s.uploadList = none
    · rw [if_neg (not_not_intro hheld)] at hfail ⊢
      have hkept : s.uploadList ≠ some m.name := by simp [hheld]
      dsimp only at hfail ⊢
      split at hfail
      · rename_i hsize
        rw [if_pos hsize]
        exact ⟨fun i f hf => ⟨i, f, hf, rfl⟩, iff_of_true ⟨rfl, hrefs⟩ (.inr ⟨hapi, hheld, .inl hsize⟩)⟩
      · rename_i hsize
        rw [if_neg hsize]
        split at hfail
        · rename_i hlist
          exact ⟨fun i f hf => ⟨i, f, hf, rfl⟩, iff_of_true ⟨rfl, hrefs⟩ (.inr ⟨hapi, hheld, .inr hlist⟩)⟩
        · cases hfail
        · rename_i hlist
          have hframes := sendFrames_keeps c.calls ({ s with uploadList := some m.name }.hold m.name)
          refine ⟨hframes.names, iff_of_false ?_ ?_⟩
          · rintro ⟨-, hone⟩
            rw [hframes.refs] at hone
            simp [hold, hrefs] at hone
          · rintro (hsame | ⟨-, -, hsize' | hlist'⟩)
            · exact hkept hsame
            · exact hsize hsize'
            · cases hlist.symm.trans hlist'
    · rw [if_pos hheld]
      exact hkeeps (.refl s) fun hbroken => hheld hbroken.2.1
  · rename_i hapi
    have hnot := hother (by simp [hapi])
    split
    · exact hkeeps (.refl s) hnot
    · split
      · exact hkeeps (call_keeps s _) hnot
      · exact hkeeps (.refl s) hnot
    · exact hkeeps (.refl s) hnot
  · rename_i hapi
    cases hfail

/-- A call that fails leaves a frame in every slot that had one, and the same one. -/
theorem call_slot {i : Nat} {f : Frame} {ok : Bool} (hf : s.buf.buf i = some f) (hfail : (s.call ok).2 = false) :
    ∃ g, (s.call ok).1.buf.buf i = some g ∧ g.name = f.name := by
  unfold call at *
  cases htake : s.buf.take with
  | none => exact ⟨f, hf, rfl⟩
  | some r =>
    obtain ⟨f', b⟩ := r
    obtain ⟨g, hg, heq⟩ := Option.map_eq_some_iff.mp htake
    obtain ⟨rfl, rfl⟩ := Prod.mk.inj heq
    rw [htake] at hfail
    cases ok with
    | true => cases hfail
    | false =>
      dsimp only
      rw [if_neg Bool.false_ne_true]
      dsimp only
      rw [Msgbuf.resave_buf]
      dsimp only
      split
      · rename_i hi
        obtain rfl : f = g := Option.some.inj (hf.symm.trans (hi ▸ hg))
        exact ⟨_, rfl, rfl⟩
      · rename_i hi
        exact ⟨f, by rw [Function.update_of_ne hi]; exact hf, rfl⟩

theorem uploadList_slot {i : Nat} {f : Frame} {c : Checks} (hf : s.buf.buf i = some f)
    (hfail : (s.xlioUploadList c).2 = false) : ∃ g, (s.xlioUploadList c).1.buf.buf i = some g ∧ g.name = f.name := by
  unfold xlioUploadList at *
  split at hfail
  · cases hfail
  · rename_i hheld
    rw [if_neg hheld]
    split at hfail
    · rename_i hmore
      rw [if_pos hmore]
      exact call_slot hf hfail
    · rename_i hmore
      rw [if_neg hmore]
      split at hfail
      · rename_i hequal
        rw [if_pos hequal]
        exact ⟨f, hf, rfl⟩
      · rename_i hequal
        rw [if_neg hequal]
        split at hfail
        · rename_i t ht
          have hfirst : (s.call (Checks.first c)).2 = false := congrArg Prod.snd ht
          have hslot := call_slot hf hfirst
          rw [ht] at hslot
          exact hslot
        · cases hfail

/-- A message that is freed after the stream. -/
theorem tidy_message {k : Nat} {fs : List Nat} : Tidy [.frame n, .stream, .free fs, .frame k] ↔ k ∉ fs := by
  simp [Tidy, List.forall_mem_ne]

theorem recv_tidy {m : Mail} {c : Checks} (hown : s.Own (.recv m c)) :
    Tidy (s.recv m c).2 ↔ s.Sound (.recv m c) := by
  have harrive : (s.arrive m.name).refs m.name = 1 := Function.update_self ..
  unfold recv Sound
  dsimp only
  split
  · rename_i htype
    simp [Tidy, htype]
  · rename_i htype
    have hslots : ¬ ∃ i f, i < 4 ∧ (s.arrive m.name).buf.buf i = some f ∧ f.name = m.name :=
      fun ⟨i, f, _, hf, hname⟩ => hown i f hf hname
    have hfreed : m.name ∈ (s.arrive m.name).released ↔ s.uploadList = some m.name := by
      rw [mem_released]
      exact ⟨fun h => (h.resolve_left hslots).1, fun h => .inr ⟨h, harrive⟩⟩
    simp [Tidy, htype, hfreed, List.forall_mem_ne]
  · rename_i htype
    by_cases hfull : s.buf.readable = 0
    · rw [if_pos (show (s.arrive m.name).buf.readable = 0 from hfull)]
      simp [Tidy, htype, hfull]
    · rw [if_neg (show ¬ (s.arrive m.name).buf.readable = 0 from hfull)]
      obtain ⟨⟨t, ok⟩, ht⟩ : ∃ r, (s.arrive m.name).xlioRecvFrame m c = r := ⟨_, rfl⟩
      rw [ht]
      cases ok with
      | true => simp [Tidy, htype]
      | false =>
        obtain ⟨hnames, hheld⟩ := recv_keeps (c := c) harrive (congrArg Prod.snd ht)
        rw [ht] at hnames hheld
        have hslots : ¬ ∃ i f, i < 4 ∧ t.buf.buf i = some f ∧ f.name = m.name := by
          rintro ⟨i, f, -, hf, hname⟩
          obtain ⟨j, g, hg, hsame⟩ := hnames i f hf
          exact hown j g hg (hsame.trans hname)
        have hfreed : m.name ∈ t.released ↔ s.uploadList = some m.name ∨ m.Broken s := by
          rw [mem_released, or_iff_right hslots]
          exact hheld
        rw [tidy_message, hfreed]
        simp [htype, hfull]

theorem tidy_append {used rest : List Access} (h : ∀ a ∈ used, ∀ fs, a ≠ .free fs) : Tidy (used ++ rest) ↔
    Tidy rest := by
  induction used with
  | nil => exact Iff.rfl
  | cons a used ih =>
    have hrest := ih fun b hb => h b (List.mem_cons_of_mem _ hb)
    cases a with
    | stream => exact hrest
    | frame n => exact hrest
    | free fs => exact absurd rfl (h _ List.mem_cons_self fs)

theorem finish_tidy {f : Frame} {res : Bool} {used : List Access} (h : ∀ a ∈ used, ∀ fs, a ≠ .free fs) :
    Tidy (s.finish f res used).2 := by
  unfold finish
  split
  · exact (tidy_append h).mpr (by simp [Tidy])
  · exact (tidy_append h).mpr (by simp [Tidy])

/-- A frame that comes back is freed with the stream, and then asked for its type. -/
theorem back_tidy {f : Frame} {c : Checks} (hown : s.Own (.back f c)) : Tidy (s.back f c).2 ↔ s.Sound (.back f c) := by
  have hslot : ({ s with buf := s.buf.resave f } : Store).buf.buf f.id = some f := Function.update_self ..
  unfold back Sound
  dsimp only
  split
  · rename_i m hm
    obtain ⟨⟨t, ok⟩, ht⟩ : ∃ r, ({ s with buf := s.buf.resave f } : Store).xlioRecvFrame m c = r := ⟨_, rfl⟩
    rw [ht]
    cases ok with
    | true => exact iff_of_true (finish_tidy (by simp)) rfl
    | false => exact iff_of_false (by simp [Tidy]) Bool.false_ne_true
  · rename_i hnone
    by_cases hup : s.upload = true
    · obtain ⟨⟨t, ok⟩, ht⟩ : ∃ r, ({ s with buf := s.buf.resave f } : Store).xlioUploadList c = r := ⟨_, rfl⟩
      rw [if_pos hup, ht]
      cases ok with
      | true => exact iff_of_true (finish_tidy (by simp)) fun _ => rfl
      | false =>
        obtain ⟨g, hg, hname⟩ := uploadList_slot (c := c) hslot (congrArg Prod.snd ht)
        rw [ht] at hg
        have hfreed : f.name ∈ t.released := mem_released.mpr (.inl ⟨f.id, g, hown, hg, hname⟩)
        simp [hup, tidy_message, hfreed]
    · rw [if_neg hup]
      exact iff_of_true (finish_tidy (by simp)) fun h => absurd h hup

/-- An iteration is tidy exactly when it is sound. -/
theorem iterate_tidy {e : LoopMsg} (hown : s.Own e) : Tidy (s.iterate e).2 ↔ s.Sound e := by
  cases e with
  | recv m c => exact recv_tidy hown
  | back f c => exact back_tidy hown
  | postDownload n c =>
    refine iff_of_true ?_ trivial
    unfold iterate postDownload
    dsimp only
    split
    · simp [Tidy]
    · split
      · simp [Tidy]
      · split <;> simp [Tidy]
  | postClose n =>
    have harrive : (s.arrive n).refs n = 1 := Function.update_self ..
    have hslots : ¬ ∃ i f, i < 4 ∧ (s.arrive n).buf.buf i = some f ∧ f.name = n :=
      fun ⟨i, f, _, hf, hname⟩ => hown i f hf hname
    have hfreed : n ∈ (s.arrive n).released ↔ s.uploadList = some n := by
      rw [mem_released]
      exact ⟨fun h => (h.resolve_left hslots).1, fun h => .inr ⟨h, harrive⟩⟩
    simp [iterate, postClose, Tidy, hfreed, Sound, List.forall_mem_ne]

end Store

/-- A fact about each result of a run is a fact about each of its steps. -/
theorem results_iff {σ ι ο : Type} {step : σ → ι → σ} {out : σ → ι → ο} {P Q : σ → ι → Prop} {R : ο → Prop}
    (h : ∀ s i, P s i → (R (out s i) ↔ Q s i)) {s : σ} {is : List ι} (hrun : Along step P s is) :
    (∀ o ∈ results step out s is, R o) ↔ Along step Q s is := by
  induction is generalizing s with
  | nil => simp [results, Along]
  | cons i is ih => rw [results, List.forall_mem_cons, h s i hrun.1, ih hrun.2, Along]

/-- The stream that a message is for meets a condition, if there is one. -/
def AtStream (P : Store → LoopMsg → Prop) (w : Nat → Option Store) (e : Nat × LoopMsg) : Prop :=
  ∀ s, w e.1 = some s → P s e.2

/-- In every run of the loop no iteration uses or frees again what it has released, exactly when every message finds its
stream sound. -/
theorem release_tidy (w : Nat → Option Store) (es : List (Nat × LoopMsg))
    (hown : Along loopStep (AtStream Store.Own) w es) :
    (∀ used ∈ results loopStep loopUses w es, Tidy used) ↔ Along loopStep (AtStream Store.Sound) w es := by
  refine results_iff (fun w e hown => ?_) hown
  unfold loopUses AtStream
  cases hs : w e.1 with
  | none => simp [Tidy]
  | some s => simpa using Store.iterate_tidy (hown s hs)

/-- An uploader before its first message. -/
def madeStore : Store where
  upload := true
  buf := .made
  uploadList := none
  recvFrame := none
  refs := fun _ => 0

/-- A `DOWNLOAD_LIST` takes the four frames; the first of them is back, and the next file of the list cannot be
opened. -/
def vanished : List (Nat × LoopMsg) :=
  [(0, .recv ⟨4, .msg, some .downloadList, true, some true⟩ ⟨true, false, true, [true, true, true, true], false⟩),
    (0, .back ⟨0, 0, false⟩ ⟨true, false, true, [false], false⟩)]

def oneStream : Nat → Option Store := fun c => if c = 0 then some madeStore else none

theorem vanished_own : Along loopStep (AtStream Store.Own) oneStream vanished := by
  refine ⟨fun s hs i f hf => ?_, fun s _ => (by decide : 0 < 4), trivial⟩
  obtain rfl : madeStore = s := by simpa [oneStream, vanished] using hs
  simp only [madeStore, Msgbuf.made, Option.ite_none_right_eq_some, Option.some.injEq] at hf
  obtain ⟨hi, rfl⟩ := hf
  simp only
  omega

theorem vanished_uses : results loopStep loopUses oneStream vanished =
    [[.frame 4, .stream, .frame 4], [.frame 0, .stream, .free [0, 4], .frame 0]] := by decide +kernel

theorem release_tidy_vanished : ¬ Along loopStep (AtStream Store.Sound) oneStream vanished := by
  intro hsound
  have htidy := (release_tidy oneStream vanished vanished_own).mpr hsound
  rw [vanished_uses] at htidy
  simp [Tidy] at htidy

/-- The type of a frame is read that was freed with the stream. -/
theorem release_used : ¬ ∀ (w : Nat → Option Store) (es : List (Nat × LoopMsg)),
    Along loopStep (AtStream Store.Own) w es →
    ∀ used ∈ results loopStep loopUses w es, Tidy used := by
  intro h
  have htidy := h oneStream vanished vanished_own
  rw [vanished_uses] at htidy
  simp [Tidy] at htidy

end Wenas.Xlio
