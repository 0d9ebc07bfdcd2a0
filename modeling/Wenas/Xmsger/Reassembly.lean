import Wenas.Xmsger.RecvRing

/-!
# Reassembly of messages from untrusted packs

`xchannel_recv_msg` sizes a message by the pack count its first pack announces and
then appends what each pack brings. The packs here come in order, with any head
that passes the length test of `msger_loop`.
-/
namespace Wenas.Xmsger

open Wenas.Machine

/-- A datagram that passes the length test: its size is that of the head and the announced body. -/
structure Accepted where
  dgram : Dgram
  size : dgram.body.length = dgram.head.len.toNat
  fits : dgram.head.len.toNat + xheadSize ≤ xpackSize

/-- A pack that is next in order, and whether a new message would get its memory. -/
structure Delivery where
  pack : Accepted
  clock : UInt64
  alloc : Bool

def Delivery.env (i : Delivery) : Env := ⟨i.clock, fun _ => 0, fun _ => true, fun _ => i.alloc⟩

/-- The pack stands in the slot at the read position. -/
def placeNext (d : Dgram) (c : Channel) : Channel :=
  { c with recvbuf := { c.recvbuf.put c.recvbuf.rslot (some d) with wpos := c.recvbuf.rpos + 1 } }

/-- The loop of the msger ends when a delivery fails. -/
def deliver (s : Channel × Bool) (i : Delivery) : Channel × Bool :=
  if s.2 then xchannelRecvMsg i.env (placeNext i.pack.dgram s.1) else s

/-- How many packs a message still lacks, `none` between two messages. The count of a first
pack includes itself, and a message that lacks none must be handed up next. -/
def countStep : Option Nat → Event → Option (Option Nat)
  | none, .consume _ d =>
    match d.head.range.toNat with
    | 0 => none
    | n + 1 => some (some n)
  | some (n + 1), .consume _ _ => some (some n)
  | some 0, .consume _ _ => none
  | some 0, .fromPeer _ => some none
  | some (_ + 1), .fromPeer _ => none
  | none, .fromPeer _ => none
  | left, _ => some left

def count (left : Option Nat) (l : List Event) : Option (Option Nat) := l.foldlM countStep left

/-- The message under assembly and those handed up lie in their buffers, and each was handed
up after as many packs as its first one announced. -/
structure WellAssembled (c : Channel) : Prop where
  inside : ∀ m, c.msg = some m → m.wpos ≤ m.size
  handed : ∀ m, .fromPeer m ∈ c.log → m.wpos ≤ m.size
  counted : ∃ left, count none c.log = some left ∧ left ≠ some 0

/-- No pack that begins a message announces none; `n` packs of the current message are missing. -/
def StartsOk : Nat → List Delivery → Prop
  | _, [] => True
  | 0, i :: is => i.alloc = false ∨ i.pack.dgram.head.range ≠ 0 ∧ StartsOk (i.pack.dgram.head.range.toNat - 1) is
  | n + 1, _ :: is => StartsOk n is

/-- `n` packs of the message under assembly are missing and there is room for them. -/
structure Lacks (n : Nat) (c : Channel) : Prop where
  empty : ∀ j, c.recvbuf.buf j = none
  counted : count none c.log = some (if n = 0 then none else some n)
  handed : ∀ m, .fromPeer m ∈ c.log → m.wpos ≤ m.size
  closed : n = 0 → c.msg = none
  opened : 0 < n → ∃ m, c.msg = some m ∧ m.range.toNat = n ∧ m.wpos.toNat + 1280 * n ≤ m.size.toNat

theorem Lacks.wellAssembled {n : Nat} {c : Channel} (h : Lacks n c) : WellAssembled c := by
  refine ⟨?_, h.handed, _, h.counted, ?_⟩
  · intro m hm
    by_cases hn : n = 0
    · rw [h.closed hn] at hm
      cases hm
    · obtain ⟨m', hm', -, hroom⟩ := h.opened (by omega)
      rw [hm] at hm'
      cases hm'
      rw [UInt64.le_iff_toNat_le]
      omega
  · split
    · simp
    · simpa using by assumption

theorem count_append (left : Option Nat) (l l' : List Event) :
    count left (l ++ l') = (count left l).bind (fun left => count left l') := by
  simp [count, List.foldlM_append, bind]

theorem recvMsgLoop_empty (e : Env) (fuel : Nat) {c : Channel} (h : c.recvbuf.buf c.recvbuf.rslot = none) :
    recvMsgLoop e fuel c = (c, true) := by
  cases fuel with
  | zero => rfl
  | succ fuel => rw [recvMsgLoop, h]

theorem recvMsgOne_recvbuf (d : Dgram) (c : Channel) :
    (recvMsgOne d c).recvbuf = { c.recvbuf.put c.recvbuf.rslot none with rpos := c.recvbuf.rpos + 1 } := by
  rw [recvMsgOne]
  dsimp only
  split <;> rfl

theorem recvMsgOne_empty {c : Channel} (hempty : ∀ j, c.recvbuf.buf j = none) (d : Dgram) (clock : UInt64) (j : Nat) :
    (recvMsgOne d { placeNext d c with recvTs := clock }).recvbuf.buf j = none := by
  rw [recvMsgOne_recvbuf]
  show (Ring.put (Ring.put _ c.recvbuf.rslot _) c.recvbuf.rslot none).buf j = none
  by_cases hj : j = c.recvbuf.rslot
  · subst hj
    exact Ring.put_buf_self _ _ _
  · rw [Ring.put_buf_of_ne _ _ hj]
    exact (Ring.put_buf_of_ne _ _ hj).trans (hempty j)

/-- A single pack in the ring is consumed, unless the message it begins gets no memory. -/
theorem recvMsg_placeNext {c : Channel} (hempty : ∀ j, c.recvbuf.buf j = none) (e : Env) (d : Dgram) :
    xchannelRecvMsg e (placeNext d c) =
      if c.msg.isNone ∧ e.alloc c.recvbuf.rpos = false then ({ placeNext d c with recvTs := e.clock }, false)
      else (recvMsgOne d { placeNext d c with recvTs := e.clock }, true) := by
  have hr : 0 < (placeNext d c).recvbuf.readable := by
    show 0 < c.recvbuf.rpos + 1 - c.recvbuf.rpos
    rw [UInt16.lt_iff_toNat_lt, UInt16.toNat_zero, UInt16.toNat_sub, UInt16.toNat_add, UInt16.toNat_one]
    have := c.recvbuf.rpos.toNat_lt
    omega
  have hslot : (placeNext d c).recvbuf.buf (placeNext d c).recvbuf.rslot = some d := Ring.put_buf_self _ _ _
  have hloop : xchannelRecvMsg e (placeNext d c) =
      recvMsgLoop e (loopFuel + 1) { placeNext d c with recvTs := e.clock } := by
    rw [xchannelRecvMsg]
    dsimp only
    rw [if_pos hr, hslot]
  rw [hloop, recvMsgLoop]
  dsimp only
  rw [hslot]
  dsimp only
  by_cases ha : c.msg.isNone ∧ e.alloc c.recvbuf.rpos = false
  · rw [if_pos ha]
    exact if_pos ha
  · rw [if_neg ha]
    refine (if_neg ha).trans ?_
    exact recvMsgLoop_empty _ _ (recvMsgOne_empty hempty _ _ _)

theorem deliver_eq {c : Channel} (hempty : ∀ j, c.recvbuf.buf j = none) (i : Delivery) :
    deliver (c, true) i =
      if c.msg.isNone ∧ i.alloc = false then ({ placeNext i.pack.dgram c with recvTs := i.clock }, false)
      else (recvMsgOne i.pack.dgram { placeNext i.pack.dgram c with recvTs := i.clock }, true) := by
  rw [deliver, if_pos rfl]
  exact recvMsg_placeNext hempty i.env i.pack.dgram

/-- The message a pack extends: it takes up the announced room pack by pack. -/
theorem extend_room {m : Option RFrame} {n : Nat} (i : Accepted)
    (hm : m = none ∧ i.dgram.head.range.toNat = n + 1 ∨
      ∃ f, m = some f ∧ f.range.toNat = n + 1 ∧ f.wpos.toNat + 1280 * (n + 1) ≤ f.size.toNat) :
    (RFrame.extend m i.dgram).range.toNat = n ∧
      (RFrame.extend m i.dgram).wpos.toNat + 1280 * n ≤ (RFrame.extend m i.dgram).size.toNat := by
  have hlen : i.dgram.head.len.toNat ≤ 1280 := by
    have := i.fits
    simp only [xheadSize, xpackSize, xbodySize] at this
    omega
  rcases hm with ⟨rfl, hr⟩ | ⟨f, rfl, hr, hroom⟩
  · have hlt := i.dgram.head.range.toNat_lt
    have hsize : (i.dgram.head.range.toUInt64 * UInt64.ofNat xbodySize).toNat = (n + 1) * 1280 := by
      rw [UInt64.toNat_mul, UInt16.toNat_toUInt64, hr]
      simp only [xbodySize, UInt64.toNat_ofNat']
      omega
    refine ⟨?_, ?_⟩
    · show (i.dgram.head.range.toUInt64 - 1).toNat = n
      rw [UInt64.toNat_sub, UInt16.toNat_toUInt64, UInt64.toNat_one]
      omega
    · show (0 + i.dgram.head.len.toUInt64).toNat + 1280 * n ≤
        (i.dgram.head.range.toUInt64 * UInt64.ofNat xbodySize).toNat
      rw [hsize, UInt64.toNat_add, UInt16.toNat_toUInt64, UInt64.toNat_zero]
      omega
  · have hlt := f.range.toNat_lt
    have hsize := f.size.toNat_lt
    refine ⟨?_, ?_⟩
    · show (f.range - 1).toNat = n
      rw [UInt64.toNat_sub, UInt64.toNat_one]
      omega
    · show (f.wpos + i.dgram.head.len.toUInt64).toNat + 1280 * n ≤ f.size.toNat
      rw [UInt64.toNat_add, UInt16.toNat_toUInt64]
      omega

/-- One pack consumed: the message lacks one pack fewer, and is handed up when it lacks none. -/
theorem Lacks.consume {p n : Nat} {c : Channel} (h : Lacks p c) (i : Accepted) (clock : UInt64)
    (hp : p = 0 ∧ i.dgram.head.range.toNat = n + 1 ∨ p = n + 1) :
    Lacks n (recvMsgOne i.dgram { placeNext i.dgram c with recvTs := clock }) := by
  have hmsg : c.msg = none ∧ i.dgram.head.range.toNat = n + 1 ∨
      ∃ f, c.msg = some f ∧ f.range.toNat = n + 1 ∧ f.wpos.toNat + 1280 * (n + 1) ≤ f.size.toNat := by
    rcases hp with ⟨rfl, hr⟩ | rfl
    · exact Or.inl ⟨h.closed rfl, hr⟩
    · exact Or.inr (h.opened (by omega))
  obtain ⟨hrange, hroom⟩ := extend_room i hmsg
  have hcount : ∀ pos, count none (c.log ++ [.consume pos i.dgram]) = some (some n) := by
    intro pos
    rw [count_append, h.counted]
    rcases hp with ⟨rfl, hr⟩ | rfl
    · simp [count, countStep, hr]
    · simp [count, countStep]
  have hle : (RFrame.extend c.msg i.dgram).wpos ≤ (RFrame.extend c.msg i.dgram).size := by
    rw [UInt64.le_iff_toNat_le]
    omega
  have hempty := recvMsgOne_empty h.empty i.dgram clock
  by_cases hz : (RFrame.extend c.msg i.dgram).range = 0
  · have hn : n = 0 := by
      rw [← hrange, hz]
      rfl
    subst hn
    have hone : ∃ pos, (recvMsgOne i.dgram { placeNext i.dgram c with recvTs := clock }).log =
        c.log ++ [.consume pos i.dgram] ++ [.fromPeer (RFrame.extend c.msg i.dgram)] ∧
        (recvMsgOne i.dgram { placeNext i.dgram c with recvTs := clock }).msg = none := by
      rw [recvMsgOne]
      dsimp only
      rw [if_pos (show (RFrame.extend (placeNext i.dgram c).msg i.dgram).range = 0 from hz)]
      exact ⟨_, rfl, rfl⟩
    obtain ⟨pos, hlog, hnone⟩ := hone
    refine ⟨hempty, ?_, ?_, fun _ => hnone, fun hlt => absurd hlt (Nat.lt_irrefl 0)⟩
    · rw [hlog, count_append, hcount]
      rfl
    · intro m hm
      rw [hlog] at hm
      simp only [List.mem_append, List.mem_singleton, Event.fromPeer.injEq, reduceCtorEq, or_false] at hm
      rcases hm with hm | rfl
      · exact h.handed m hm
      · exact hle
  · have hn : 0 < n := by
      by_contra hn
      apply hz
      apply UInt64.toNat_inj.mp
      rw [hrange, UInt64.toNat_zero]
      omega
    have hone : ∃ pos, (recvMsgOne i.dgram { placeNext i.dgram c with recvTs := clock }).log =
        c.log ++ [.consume pos i.dgram] ∧
        (recvMsgOne i.dgram { placeNext i.dgram c with recvTs := clock }).msg = some (RFrame.extend c.msg i.dgram) := by
      rw [recvMsgOne]
      dsimp only
      rw [if_neg (show ¬ (RFrame.extend (placeNext i.dgram c).msg i.dgram).range = 0 from hz)]
      exact ⟨_, rfl, rfl⟩
    obtain ⟨pos, hlog, hsome⟩ := hone
    refine ⟨hempty, ?_, ?_, fun hz => absurd hz (by omega), fun _ => ⟨_, hsome, hrange, hroom⟩⟩
    · rw [hlog, hcount, if_neg (by omega)]
    · intro m hm
      rw [hlog] at hm
      simp only [List.mem_append, List.mem_singleton, reduceCtorEq, or_false] at hm
      exact h.handed m hm

/-- A first pack that announces none breaks the count at once. -/
theorem Lacks.announces {c : Channel} (h : Lacks 0 c) (i : Accepted) (clock : UInt64) (hz : i.dgram.head.range = 0) :
    ¬ WellAssembled (recvMsgOne i.dgram { placeNext i.dgram c with recvTs := clock }) := by
  intro hw
  obtain ⟨left, hleft, -⟩ := hw.counted
  have hlog : ∃ pos rest, (recvMsgOne i.dgram { placeNext i.dgram c with recvTs := clock }).log =
      c.log ++ ([.consume pos i.dgram] ++ rest) := by
    rw [recvMsgOne]
    dsimp only
    split
    · exact ⟨_, [.fromPeer _], List.append_assoc _ _ _⟩
    · exact ⟨_, [], rfl⟩
  obtain ⟨pos, rest, hlog⟩ := hlog
  rw [hlog, count_append, h.counted] at hleft
  simp [count, countStep, hz] at hleft

theorem run_stopped (c : Channel) (is : List Delivery) : run deliver (c, false) is = (c, false) := by
  induction is with
  | nil => rfl
  | cons i is ih => exact ih

theorem wellAssembled_iff (is : List Delivery) :
    ∀ {n : Nat} {c : Channel}, Lacks n c →
      ((∀ j, WellAssembled (run deliver (c, true) (is.take j)).1) ↔ StartsOk n is) := by
  induction is with
  | nil =>
    intro n c h
    simpa [StartsOk] using h.wellAssembled
  | cons i is ih =>
    intro n c h
    have hsplit : (∀ j, WellAssembled (run deliver (c, true) ((i :: is).take j)).1) ↔
        ∀ j, WellAssembled (run deliver (deliver (c, true) i) (is.take j)).1 := by
      constructor
      · intro hall j
        exact hall (j + 1)
      · intro hall j
        cases j with
        | zero => exact h.wellAssembled
        | succ j => exact hall j
    rw [hsplit, deliver_eq h.empty]
    cases n with
    | zero =>
      have hnone := h.closed rfl
      cases ha : i.alloc with
      | false =>
        have hstop : WellAssembled { placeNext i.pack.dgram c with recvTs := i.clock } :=
          ⟨h.wellAssembled.inside, h.wellAssembled.handed, h.wellAssembled.counted⟩
        simp only [hnone, Option.isNone_none, and_self, if_true, run_stopped, StartsOk, ha, true_or, iff_true]
        exact fun _ => hstop
      | true =>
        simp only [reduceCtorEq, and_false, if_false, StartsOk, ha, false_or]
        by_cases hz : i.pack.dgram.head.range = 0
        · simp only [hz, ne_eq, not_true, false_and, iff_false]
          intro hall
          exact h.announces i.pack i.clock hz (hall 0)
        · have hpos : i.pack.dgram.head.range.toNat = i.pack.dgram.head.range.toNat - 1 + 1 := by
            have : i.pack.dgram.head.range.toNat ≠ 0 := by
              rwa [Ne, ← UInt16.toNat_zero, UInt16.toNat_inj]
            omega
          simp only [hz, ne_eq, not_false_eq_true, true_and]
          exact ih (h.consume i.pack i.clock (Or.inl ⟨rfl, hpos⟩))
    | succ n =>
      obtain ⟨m, hm, -⟩ := h.opened (by omega)
      simp only [hm, Option.isNone_some, Bool.false_eq_true, false_and, if_false, StartsOk]
      exact ih (h.consume i.pack i.clock (Or.inr rfl))

/-- Whatever the peer sends, messages stay inside their buffers and are handed up after the
announced number of packs exactly if no pack that begins a message announces none. -/
theorem reassembly_inside (serialRange cid : UInt16) (clock : UInt64) (is : List Delivery) :
    (∀ j, WellAssembled (run deliver (xchannelCreate serialRange cid clock, true) (is.take j)).1) ↔ StartsOk 0 is := by
  refine wellAssembled_iff is ⟨fun _ => rfl, rfl, ?_, fun _ => rfl, fun h => absurd h (Nat.lt_irrefl 0)⟩
  intro m hm
  cases hm

/-- One byte in a pack that announces no pack at all. -/
def announcesNone : Delivery where
  pack := ⟨⟨{ Head.zero with type := xpackTypeMsg, len := 1, range := 0 }, [7]⟩, rfl, by decide⟩
  clock := 0
  alloc := true

theorem reassembly_outside :
    ¬ WellAssembled (run deliver (xchannelCreate 64 0 0, true) [announcesNone]).1 := by
  intro h
  have hle := h.inside ⟨xpackTypeMsg, 0 - 1, 0, 1, [7]⟩ (by decide +kernel)
  exact absurd hle (by decide)

end Wenas.Xmsger
