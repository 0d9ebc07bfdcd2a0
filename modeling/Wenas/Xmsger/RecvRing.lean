import Wenas.Xmsger.Window

/-!
# The receive ring

Between two calls the read and the write position agree and every stored pack is
one of the next `2 ^ k` in the slot of its number. This holds as long as no pack
is kept that lies a whole ring ahead; `H` says what else is known about a pack.
-/
namespace Wenas.Xmsger

open Wenas.Serial Wenas.Machine

/-- Packs `r` to `w` are there, later ones may be, and each is in the slot of its number. -/
structure Sorted (H : Nat → Dgram → Prop) (k r w : Nat) (b : Ring (Option Dgram)) : Prop where
  small : k ≤ 15
  range : b.range = sn (2 ^ k)
  rpos : b.rpos = sn r
  wpos : b.wpos = sn w
  le : r ≤ w
  room : w ≤ r + 2 ^ k
  full : ∀ n, r ≤ n → n < w → b.buf (n % 2 ^ k) ≠ none
  holds : ∀ n d, r ≤ n → n < r + 2 ^ k → b.buf (n % 2 ^ k) = some d → H n d

/-- The pack at the write position is missing, or the ring is full. -/
def Gap (k r w : Nat) (b : Ring (Option Dgram)) : Prop := b.buf (w % 2 ^ k) = none ∨ w = r + 2 ^ k

section

variable {H : Nat → Dgram → Prop} {k r w : Nat} {b : Ring (Option Dgram)}

theorem Sorted.slot_sn (h : Sorted H k r w b) (n : Nat) : slot b.range (sn n) = n % 2 ^ k := by
  rw [h.range]
  exact Serial.slot_sn h.small n

theorem Sorted.writable (h : Sorted H k r w b) : 0 < b.writable ↔ w < r + 2 ^ k := by
  have := two_pow_le h.small
  have := h.le
  have := h.room
  rw [UInt16.lt_iff_toNat_lt, UInt16.toNat_zero, Ring.writable, h.range, h.wpos, h.rpos]
  simp only [UInt16.toNat_add, UInt16.toNat_sub, sn_toNat]
  omega

theorem Sorted.readable (h : Sorted H k r w b) : 0 < b.readable ↔ r < w := by
  have := two_pow_le h.small
  have := h.le
  have := h.room
  rw [UInt16.lt_iff_toNat_lt, UInt16.toNat_zero, Ring.readable, h.wpos, h.rpos, dist_forward h.le (by omega)]
  omega

/-- A pack of the ring is put into its slot. -/
theorem Sorted.put (h : Sorted H k r w b) {n : Nat} (hr : r ≤ n) (hn : n < r + 2 ^ k) {d : Dgram} (hd : H n d) :
    Sorted H k r w (b.put (n % 2 ^ k) (some d)) := by
  refine { h with full := ?_, holds := ?_ }
  · intro p hrp hpw
    by_cases he : p % 2 ^ k = n % 2 ^ k
    · rw [he, Ring.put_buf_self]
      simp
    · rw [Ring.put_buf_of_ne _ _ he]
      exact h.full p hrp hpw
  · intro p d' hrp hpr hp
    by_cases he : p = n
    · subst he
      rw [Ring.put_buf_self] at hp
      rwa [← Option.some.inj hp]
    · rw [Ring.put_buf_of_ne _ _ (Ring.slot_ne hrp hr hpr hn he)] at hp
      exact h.holds p d' hrp hpr hp

theorem Sorted.advance (h : Sorted H k r w b) (hfull : b.buf (w % 2 ^ k) ≠ none) (hroom : w < r + 2 ^ k) :
    Sorted H k r (w + 1) { b with wpos := b.wpos + 1 } := by
  have hle := h.le
  refine { h with wpos := ?_, le := by omega, room := by omega, full := ?_ }
  · show b.wpos + 1 = sn (w + 1)
    rw [h.wpos, sn_succ]
  · intro n hrn hnw
    by_cases he : n = w
    · rw [he]
      exact hfull
    · exact h.full n hrn (by omega)

/-- The oldest pack is taken out; the gap behind the last one stays. -/
theorem Sorted.consume (h : Sorted H k r w b) (hlt : r < w) (hgap : Gap k r w b) :
    Sorted H k (r + 1) w { b.put b.rslot none with rpos := b.rpos + 1 } ∧
      Gap k (r + 1) w { b.put b.rslot none with rpos := b.rpos + 1 } := by
  have hroom := h.room
  have hslot : b.rslot = r % 2 ^ k := by rw [Ring.rslot, h.rpos, h.slot_sn]
  rw [hslot]
  have hnone : ∀ n, n % 2 ^ k = r % 2 ^ k → (b.put (r % 2 ^ k) none).buf (n % 2 ^ k) = none := by
    intro n hn
    rw [hn, Ring.put_buf_self]
  refine ⟨{ h with rpos := ?_, le := by omega, room := by omega, full := ?_, holds := ?_ }, Or.inl ?_⟩
  · show b.rpos + 1 = sn (r + 1)
    rw [h.rpos, sn_succ]
  · intro n hrn hnw
    show (b.put (r % 2 ^ k) none).buf (n % 2 ^ k) ≠ none
    rw [Ring.put_buf_of_ne _ _ (Ring.slot_ne (show r ≤ n by omega) (Nat.le_refl r) (by omega) (by omega) (by omega))]
    exact h.full n (by omega) hnw
  · intro n d hrn hnr hn
    change (b.put (r % 2 ^ k) none).buf (n % 2 ^ k) = some d at hn
    by_cases he : n % 2 ^ k = r % 2 ^ k
    · rw [hnone n he] at hn
      cases hn
    · rw [Ring.put_buf_of_ne _ _ he] at hn
      have hne : n ≠ r + 2 ^ k := by
        rintro rfl
        simp at he
      exact h.holds n d (by omega) (by omega) hn
  · show (b.put (r % 2 ^ k) none).buf (w % 2 ^ k) = none
    by_cases he : w % 2 ^ k = r % 2 ^ k
    · exact hnone w he
    · rw [Ring.put_buf_of_ne _ _ he]
      rcases hgap with hgap | rfl
      · exact hgap
      · simp at he

end

/-! ### The loops -/

/-- The packs consumed and the messages handed up. -/
def Event.isTaken : Event → Bool
  | .consume _ _ => true
  | .fromPeer _ => true
  | _ => false

def taken (l : List Event) : List Event := l.filter Event.isTaken

theorem taken_append (l l' : List Event) : taken (l ++ l') = taken l ++ taken l' := List.filter_append l l'

theorem taken_of_emits {l l' : List Event} (h : Emits (fun e => e.isTaken = false) l l') : taken l' = taken l :=
  h.filter

theorem Event.not_taken {e : Event} (h : e.isRecv = false) : e.isTaken = false := by
  cases e <;> simp_all [Event.isRecv, Event.isTaken]

/-- The acknowledgement a receiver is about to send is for what it has in order. -/
structure AckReady (x : Core) : Prop where
  type : x.ack.type = xpackTypeAck
  pos : x.ack.ack.pos = x.recvbuf.wpos

theorem advance_loop {H : Nat → Dgram → Prop} {k r : Nat} (fuel : Nat) :
    ∀ {c : Channel} {w : Nat}, Sorted H k r w c.recvbuf → AckReady c.toCore → r + 2 ^ k - w ≤ fuel →
      ∃ w', w ≤ w' ∧ Sorted H k r w' (advanceLoop fuel c).recvbuf ∧ Gap k r w' (advanceLoop fuel c).recvbuf ∧
        AckReady (advanceLoop fuel c).toCore ∧ (advanceLoop fuel c).msg = c.msg ∧
        (advanceLoop fuel c).log = c.log := by
  induction fuel with
  | zero =>
    intro c w h ha hf
    have := h.room
    exact ⟨w, Nat.le_refl _, h, Or.inr (by omega), ha, rfl, rfl⟩
  | succ fuel ih =>
    intro c w h ha hf
    have hw : c.recvbuf.wslot = w % 2 ^ k := by rw [Ring.wslot, h.wpos, h.slot_sn]
    rw [advanceLoop]
    by_cases hc : (c.recvbuf.buf c.recvbuf.wslot).isSome ∧ 0 < c.recvbuf.writable
    · rw [if_pos hc]
      rw [hw, Option.isSome_iff_ne_none, h.writable] at hc
      have h₁ := h.advance hc.1 hc.2
      obtain ⟨w', hle, hrest⟩ := ih (c := { c with recvbuf := { c.recvbuf with wpos := c.recvbuf.wpos + 1 } }.setAck
        (c.recvbuf.wpos + 1) (c.recvbuf.wpos + 1)) h₁ ⟨ha.type, rfl⟩ (by omega)
      exact ⟨w', by omega, hrest⟩
    · rw [if_neg hc]
      refine ⟨w, Nat.le_refl _, h, ?_, ha, rfl, rfl⟩
      rw [hw, Option.isSome_iff_ne_none, h.writable] at hc
      have := h.room
      by_cases hn : c.recvbuf.buf (w % 2 ^ k) = none
      · exact Or.inl hn
      · exact Or.inr (by by_contra hlt; exact hc ⟨hn, by omega⟩)

/-- What is taken out with pack `n`, and the message that remains under assembly. -/
def takenWith (n : Nat) (m : Option RFrame) (d : Dgram) : List Event :=
  .consume (sn n) d :: if (RFrame.extend m d).range = 0 then [.fromPeer (RFrame.extend m d)] else []

def remains (m : Option RFrame) (d : Dgram) : Option RFrame :=
  if (RFrame.extend m d).range = 0 then none else some (RFrame.extend m d)

/-- `J` follows the message under assembly and what has been taken out, pack after pack. -/
def Follows (H : Nat → Dgram → Prop) (J : Nat → Option RFrame → List Event → Prop) : Prop :=
  ∀ n m l d, J n m l → H n d → J (n + 1) (remains m d) (l ++ takenWith n m d)

theorem recvMsgOne_spec {n : Nat} {c : Channel} (hn : c.recvbuf.rpos = sn n) (d : Dgram) :
    (recvMsgOne d c).msg = remains c.msg d ∧ (recvMsgOne d c).log = c.log ++ takenWith n c.msg d ∧
      (recvMsgOne d c).recvbuf = { c.recvbuf.put c.recvbuf.rslot none with rpos := c.recvbuf.rpos + 1 } ∧
      (recvMsgOne d c).ack = c.ack := by
  rw [recvMsgOne, remains, takenWith, ← hn]
  dsimp only
  split
  · exact ⟨rfl, List.append_assoc _ _ _, rfl, rfl⟩
  · exact ⟨rfl, rfl, rfl, rfl⟩

theorem taken_takenWith (n : Nat) (m : Option RFrame) (d : Dgram) : taken (takenWith n m d) = takenWith n m d := by
  rw [takenWith]
  split <;> rfl

/-- What the receiving side adds to the log when its packs satisfy `H`. -/
def RecvEvent (H : Nat → Dgram → Prop) (e : Event) : Prop :=
  (∃ n d, H n d ∧ (e = .consume (sn n) d ∨ e = .store none d)) ∨ ∃ m, e = .fromPeer m

section

variable {H : Nat → Dgram → Prop} {J : Nat → Option RFrame → List Event → Prop} {k : Nat}

/-- The packs in order are consumed up to the gap, or up to a message that gets no memory. -/
theorem recv_msg_loop (hJ : Follows H J) (e : Env) (w : Nat) (fuel : Nat) :
    ∀ {c : Channel} {r : Nat}, Sorted H k r w c.recvbuf → Gap k r w c.recvbuf → w - r < fuel →
      J r c.msg (taken c.log) →
      ∃ r', r ≤ r' ∧ r' ≤ w ∧ Sorted H k r' w (recvMsgLoop e fuel c).1.recvbuf ∧
        J r' (recvMsgLoop e fuel c).1.msg (taken (recvMsgLoop e fuel c).1.log) ∧
        (recvMsgLoop e fuel c).1.ack = c.ack ∧ Emits (RecvEvent H) c.log (recvMsgLoop e fuel c).1.log ∧
        ((recvMsgLoop e fuel c).2 = true → r' = w ∧ (recvMsgLoop e fuel c).1.recvbuf.buf (w % 2 ^ k) = none) := by
  induction fuel with
  | zero =>
    intro c r h _ hf
    omega
  | succ fuel ih =>
    intro c r h hgap hf hj
    have hle := h.le
    have hpow := Nat.two_pow_pos k
    have hslot : c.recvbuf.rslot = r % 2 ^ k := by rw [Ring.rslot, h.rpos, h.slot_sn]
    rw [recvMsgLoop]
    cases hb : c.recvbuf.buf c.recvbuf.rslot with
    | none =>
      have hrw : r = w := by
        by_contra hne
        rw [hslot] at hb
        exact h.full r (Nat.le_refl r) (by omega) hb
      subst hrw
      rw [hslot] at hb
      exact ⟨r, Nat.le_refl _, Nat.le_refl _, h, hj, rfl, Emits.refl, fun _ => ⟨rfl, hb⟩⟩
    | some d =>
      rw [hslot] at hb
      have hd := h.holds r d (Nat.le_refl r) (by omega) hb
      have hlt : r < w := by
        by_contra hge
        have hrw : r = w := by omega
        subst hrw
        rcases hgap with hgap | hgap
        · rw [hb] at hgap
          cases hgap
        · omega
      by_cases ha : c.msg.isNone ∧ e.alloc c.recvbuf.rpos = false
      · simp only [if_pos ha]
        exact ⟨r, Nat.le_refl _, hle, h, hj, by simp, Emits.refl, by simp⟩
      · simp only [if_neg ha]
        obtain ⟨hmsg, hlog, hbuf, hack⟩ := recvMsgOne_spec h.rpos d
        have hj₁ : J (r + 1) (recvMsgOne d c).msg (taken (recvMsgOne d c).log) := by
          rw [hmsg, hlog, taken_append, taken_takenWith]
          exact hJ r c.msg _ d hj hd
        have hem : Emits (RecvEvent H) c.log (recvMsgOne d c).log := by
          rw [hlog, takenWith]
          refine ⟨_, rfl, ?_⟩
          intro ev hev
          rcases List.mem_cons.mp hev with rfl | hev
          · exact Or.inl ⟨r, d, hd, Or.inl rfl⟩
          · split at hev
            · exact Or.inr ⟨_, List.mem_singleton.mp hev⟩
            · cases hev
        obtain ⟨h₁, hgap₁⟩ := h.consume hlt hgap
        rw [← hbuf] at h₁ hgap₁
        obtain ⟨r', hr, hw, h₂, hj₂, hack₂, hem₂, hok⟩ := ih h₁ hgap₁ (by omega) hj₁
        exact ⟨r', by omega, hw, h₂, hj₂, hack₂.trans hack, hem.trans hem₂, hok⟩

/-- Between two calls: nothing waits to be read and the next pack in order is missing. -/
structure RecvInv (H : Nat → Dgram → Prop) (k n : Nat) (x : Core) : Prop where
  sorted : Sorted H k n n x.recvbuf
  empty : x.recvbuf.buf (n % 2 ^ k) = none
  ready : AckReady x

theorem RecvInv.create (hk : k ≤ 15) (cid : UInt16) (clock : UInt64) :
    RecvInv H k 0 (xchannelCreate (sn (2 ^ k)) cid clock).toCore where
  sorted :=
    { small := hk, range := rfl, rpos := rfl, wpos := rfl, le := Nat.le_refl 0, room := Nat.zero_le _
      full := by intro n _ h; exact absurd h (Nat.not_lt_zero n)
      holds := by intro n d _ _ h; cases h }
  empty := rfl
  ready := ⟨rfl, rfl⟩

theorem RecvInv.mono {H' : Nat → Dgram → Prop} {n : Nat} {x : Core} (h : RecvInv H k n x)
    (hH : ∀ p d, H p d → H' p d) : RecvInv H' k n x :=
  ⟨{ h.sorted with holds := fun p d hp hp' hd => hH p d (h.sorted.holds p d hp hp' hd) }, h.empty, h.ready⟩

theorem RecvInv.apart {n : Nat} {x y : Core} (h : RecvInv H k n x) (ha : Apart x y) : RecvInv H k n y := by
  have hb := ha.recvbuf
  refine ⟨hb ▸ h.sorted, hb ▸ h.empty, ?_, ?_⟩
  · rw [ha.ackType]
    exact h.ready.type
  · rw [ha.ackPos, hb]
    exact h.ready.pos

/-- The outcome of receiving a pack in a state with `n` packs in order. -/
structure Received (H : Nat → Dgram → Prop) (J : Nat → Option RFrame → List Event → Prop) (k n : Nat) (l : List Event)
    (res : Channel × Bool) (p : Nat) : Prop where
  le : n ≤ p
  follows : J p res.1.msg (taken res.1.log)
  log : Emits (fun e => RecvEvent H e ∨ e.isRecv = false) l res.1.log
  inv : res.2 = true → RecvInv H k p res.1.toCore

theorem Apart.recvCarried {c : Channel} (e : Env) (d : Dgram) : Apart c.toCore (recvCarried e d c).toCore := by
  rw [Xmsger.recvCarried]
  split
  · exact Apart.recvAck e d.head.ack
  · exact Apart.refl _

/-- With nothing to read `xchannel_recv_msg` only takes the time. -/
theorem RecvInv.recvMsg_idle {n : Nat} {c : Channel} (h : RecvInv H k n c.toCore) (e : Env) :
    xchannelRecvMsg e c = ({ c with recvTs := e.clock }, true) := by
  have hr : ¬ 0 < c.recvbuf.readable := by
    rw [h.sorted.readable]
    omega
  rw [xchannelRecvMsg]
  exact if_neg hr

theorem RecvInv.storeNext {n : Nat} {c : Channel} (h : RecvInv H k n c.toCore) {d : Dgram} (hs : d.head.sn = sn n)
    (hd : H n d) :
    Sorted H k n (n + 1) (storeNext d c).recvbuf ∧ AckReady (storeNext d c).toCore ∧ (storeNext d c).msg = c.msg ∧
      (storeNext d c).log = c.log ++ [.store none d] := by
  have hpow := Nat.two_pow_pos k
  have hslot : slot c.recvbuf.range d.head.sn = n % 2 ^ k := by rw [hs, h.sorted.slot_sn]
  have h₁ := (h.sorted.put (Nat.le_refl n) (by omega) hd).advance (by simp) (by omega)
  refine ⟨?_, ⟨h.ready.type, rfl⟩, rfl, ?_⟩
  · rw [← hslot] at h₁
    exact h₁
  · show c.log ++ [.store (c.recvbuf.buf (slot c.recvbuf.range d.head.sn)) d] = _
    rw [hslot, h.empty]

/-- All packs in order are consumed. -/
theorem recvMsg_spec (hJ : Follows H J) {n w : Nat} {c : Channel} (h : Sorted H k n w c.recvbuf)
    (hgap : Gap k n w c.recvbuf) (hlt : n < w) (hready : AckReady c.toCore) (e : Env) (hj : J n c.msg (taken c.log)) :
    ∃ p, Received H J k n c.log (xchannelRecvMsg e c) p := by
  have hpow := two_pow_le h.small
  have hroom := h.room
  have hslot : c.recvbuf.rslot = n % 2 ^ k := by rw [Ring.rslot, h.rpos, h.slot_sn]
  obtain ⟨d, hd⟩ := Option.ne_none_iff_exists'.mp (h.full n (Nat.le_refl n) hlt)
  have heq : xchannelRecvMsg e c = recvMsgLoop e (loopFuel + 1) { c with recvTs := e.clock } := by
    rw [xchannelRecvMsg]
    dsimp only
    rw [if_pos (h.readable.mpr hlt), hslot, hd]
  obtain ⟨p, hn, hw, hs, hj', hack, hem, hok⟩ :=
    recv_msg_loop hJ e w (loopFuel + 1) (c := { c with recvTs := e.clock }) h hgap (by simp only [loopFuel]; omega) hj
  rw [← heq] at hs hj' hack hem hok
  refine ⟨p, hn, hj', hem.mono fun _ => Or.inl, ?_⟩
  intro htrue
  obtain ⟨rfl, hempty⟩ := hok htrue
  refine ⟨hs, hempty, ?_, ?_⟩
  · rw [hack]
    exact hready.type
  · rw [hack, hs.wpos]
    exact hready.pos.trans h.wpos

/-- The expected pack: it is stored, those already there after it follow, and all are consumed. -/
theorem RecvInv.inOrder (hJ : Follows H J) {n : Nat} {c : Channel} (h : RecvInv H k n c.toCore) (e : Env) {d : Dgram}
    (hs : d.head.sn = sn n) (hd : H n d) (hj : J n c.msg (taken c.log)) :
    ∃ p, Received H J k n c.log (xchannelRecvMsg e (recvInOrder e d c)) p := by
  have ha := Apart.recvCarried (c := c) e d
  obtain ⟨h₁, hready₁, hmsg₁, hlog₁⟩ := (h.apart ha).storeNext hs hd
  have hpow := two_pow_le h₁.small
  obtain ⟨w, hw, h₂, hgap, hready₂, hmsg₂, hlog₂⟩ := advance_loop loopFuel h₁ hready₁ (by simp only [loopFuel]; omega)
  have hlog : Emits (fun e => RecvEvent H e ∨ e.isRecv = false) c.log (recvInOrder e d c).log := by
    rw [recvInOrder, hlog₂, hlog₁]
    exact (ha.log.mono fun _ => Or.inr).trans (Emits.snoc (Or.inl (Or.inl ⟨n, d, hd, Or.inr rfl⟩)))
  have hj₂ : J n (recvInOrder e d c).msg (taken (recvInOrder e d c).log) := by
    rw [recvInOrder, hmsg₂, hmsg₁, ha.msg, hlog₂, hlog₁, taken_append,
      taken_of_emits (ha.log.mono fun _ => Event.not_taken)]
    simpa [taken, Event.isTaken] using hj
  obtain ⟨p, hp⟩ := recvMsg_spec hJ h₂ hgap (by omega) hready₂ e hj₂
  exact ⟨p, hp.le, hp.follows, hlog.trans hp.log, hp.inv⟩

/-- A pack within the ring ahead is kept in its slot when that is empty. -/
theorem RecvInv.early {n p : Nat} {c : Channel} (h : RecvInv H k n c.toCore) (e : Env) {d : Dgram}
    (hs : d.head.sn = sn p) (hn : n < p) (hp : p < n + 2 ^ k) (hd : H p d) :
    RecvInv H k n (recvEarly e d c).toCore ∧ (recvEarly e d c).msg = c.msg ∧
      Emits (fun e => (RecvEvent H e ∧ e.isTaken = false) ∨ e.isRecv = false) c.log (recvEarly e d c).log := by
  have hset : RecvInv H k n (c.setAck d.head.sn c.recvbuf.wpos).toCore := ⟨h.sorted, h.empty, h.ready.type, rfl⟩
  have ha := Apart.recvCarried (c := c.setAck d.head.sn c.recvbuf.wpos) e d
  have h₁ := hset.apart ha
  have hslot : slot c.recvbuf.range d.head.sn = p % 2 ^ k := by rw [hs, h.sorted.slot_sn]
  have hne : n % 2 ^ k ≠ p % 2 ^ k := Ring.slot_ne (Nat.le_refl n) (le_of_lt hn) (by omega) hp (by omega)
  rw [recvEarly]
  split
  · rename_i hnone
    have hfree : (recvCarried e d (c.setAck d.head.sn c.recvbuf.wpos)).recvbuf.buf (p % 2 ^ k) = none := by
      rw [ha.recvbuf, ← hslot]
      exact Option.isNone_iff_eq_none.mp hnone
    have hslot' : slot (recvCarried e d (c.setAck d.head.sn c.recvbuf.wpos)).recvbuf.range d.head.sn = p % 2 ^ k := by
      rw [congrArg Ring.range ha.recvbuf]
      exact hslot
    refine ⟨⟨?_, ?_, h₁.ready.type, h₁.ready.pos⟩, ha.msg, (ha.log.mono fun _ => Or.inr).trans ?_⟩
    · have := h₁.sorted.put (le_of_lt hn) hp hd
      rw [← hslot'] at this
      exact this
    · show (Ring.put _ (slot _ d.head.sn) (some d)).buf (n % 2 ^ k) = none
      rw [hslot', Ring.put_buf_of_ne _ _ hne]
      exact h₁.empty
    · show Emits _ _ (_ ++ [.store (Ring.buf _ (slot _ d.head.sn)) d])
      rw [hslot', hfree]
      exact Emits.snoc (Or.inl ⟨Or.inl ⟨p, d, hd, Or.inr rfl⟩, rfl⟩)
  · exact ⟨hset, rfl, Emits.refl⟩

/-- The slot of an early pack is taken: the pack is acknowledged and dropped. -/
theorem RecvInv.early_dropped {n : Nat} {c : Channel} (h : RecvInv H k n c.toCore) (e : Env) {d : Dgram}
    (htaken : (c.recvbuf.buf (slot c.recvbuf.range d.head.sn)).isNone = false) :
    recvEarly e d c = c.setAck d.head.sn c.recvbuf.wpos ∧ RecvInv H k n (recvEarly e d c).toCore := by
  have hdrop : recvEarly e d c = c.setAck d.head.sn c.recvbuf.wpos := by
    rw [recvEarly]
    exact if_neg (by simp [Channel.setAck, htaken])
  exact ⟨hdrop, hdrop ▸ ⟨h.sorted, h.empty, h.ready.type, rfl⟩⟩

/-- The pack lies ahead of the write position but not within the ring, and finds an empty slot. -/
def Overshoots (d : Dgram) (x : Core) : Prop :=
  d.head.sn - x.recvbuf.wpos < x.recvbuf.wpos - d.head.sn ∧ x.recvbuf.range ≤ d.head.sn - x.recvbuf.wpos ∧
    (x.recvbuf.buf (slot x.recvbuf.range d.head.sn)).isNone = true

instance (d : Dgram) (x : Core) : Decidable (Overshoots d x) := inferInstanceAs (Decidable (_ ∧ _))

/-- Receiving a pack that does not overshoot. -/
theorem RecvInv.recvPack (hJ : Follows H J) {n : Nat} {c : Channel} (h : RecvInv H k n c.toCore) (e : Env) {d : Dgram}
    (hd : ∀ p, n ≤ p → p < n + 2 ^ k → d.head.sn = sn p → H p d) (hfit : ¬ Overshoots d c.toCore)
    (hj : J n c.msg (taken c.log)) : ∃ p, Received H J k n c.log (xchannelRecvPack e d c) p := by
  have hpow := two_pow_le h.sorted.small
  have hpos := Nat.two_pow_pos k
  have hw := h.sorted.wpos
  have hnote : RecvInv H k n (noteType d c).toCore := ⟨h.sorted, h.empty, rfl, h.ready.pos⟩
  rw [xchannelRecvPack]
  split
  · rename_i hs
    have hs' : d.head.sn = sn n := hs.trans hw
    exact hnote.inOrder hJ e hs' (hd n (Nat.le_refl n) (by omega) hs') hj
  · rename_i hs
    split
    · rename_i hlt
      cases hslot : (c.recvbuf.buf (slot c.recvbuf.range d.head.sn)).isNone with
      | false =>
        obtain ⟨hdrop, h₁⟩ := hnote.early_dropped e hslot
        rw [h₁.recvMsg_idle]
        rw [hdrop] at h₁ ⊢
        exact ⟨n, Nat.le_refl n, hj, Emits.refl, fun _ => h₁⟩
      | true =>
        have hnear : (d.head.sn - sn n).toNat < 2 ^ k := by
          by_contra hge
          refine hfit ⟨hlt, ?_, hslot⟩
          rw [h.sorted.range, hw, UInt16.le_iff_toNat_le, sn_toNat]
          omega
        have hahead := exists_ahead n d.head.sn
        have hne : 0 < (d.head.sn - sn n).toNat := by
          by_contra hz
          have hz' : (d.head.sn - sn n).toNat = 0 := by omega
          rw [hz', Nat.add_zero] at hahead
          exact hs (hahead.trans hw.symm)
        obtain ⟨h₁, hmsg, hlog⟩ := hnote.early e hahead (by omega) (by omega) (hd _ (by omega) (by omega) hahead)
        rw [h₁.recvMsg_idle]
        refine ⟨n, Nat.le_refl n, ?_, hlog.mono (fun _ he => he.imp And.left id), fun _ => h₁⟩
        show J n (recvEarly e d (noteType d c)).msg (taken (recvEarly e d (noteType d c)).log)
        rw [hmsg, taken_of_emits (hlog.mono fun _ he => he.elim And.right Event.not_taken)]
        exact hj
    · have h₁ : RecvInv H k n (recvAgain (noteType d c)).toCore := ⟨h.sorted, h.empty, rfl, rfl⟩
      rw [h₁.recvMsg_idle]
      exact ⟨n, Nat.le_refl n, hj, Emits.refl, fun _ => h₁⟩

end

/-! ### Runs -/

/-- All calls but the reception of a pack leave the receiving side alone. -/
theorem Call.apart (call : Call) (hcall : ∀ e d, call ≠ .recvPack e d) (c : Channel) :
    Apart c.toCore (call.run c).1.toCore ∧ (call.run c).2 = true := by
  cases call with
  | send m => exact ⟨Apart.send m, rfl⟩
  | serial => exact ⟨Apart.serial, rfl⟩
  | sendPack clock ok => exact ⟨Apart.sendPack clock ok, rfl⟩
  | resend clock ok => exact ⟨Apart.resend clock ok, rfl⟩
  | sendAck ok => exact ⟨Apart.sendAck ok, rfl⟩
  | recvAck e ack => exact ⟨Apart.recvAck e ack, rfl⟩
  | recvPack e d => exact absurd rfl (hcall e d)

/-- A consumed pack has the number of its position, and a stored one an empty slot. -/
def Event.SlotOk : Event → Prop
  | .consume pos d => d.head.sn = pos
  | .store old _ => old = none
  | _ => True

instance : DecidablePred Event.SlotOk := fun e =>
  match e with
  | .consume pos d => inferInstanceAs (Decidable (d.head.sn = pos))
  | .store old _ => inferInstanceAs (Decidable (old = none))
  | .sendto _ _ | .release _ | .toPeer _ _ | .fromPeer _ | .fault => .isTrue trivial

/-- No early pack that is kept lies a ring or more ahead. -/
def Call.InRing (p : Peer) : Call → Prop
  | .recvPack _ d => ¬ Overshoots d p.chan.toCore
  | _ => True

instance (p : Peer) : DecidablePred (Call.InRing p) := fun call =>
  match call with
  | .recvPack _ d => inferInstanceAs (Decidable (¬ Overshoots d p.chan.toCore))
  | .send _ | .serial | .sendPack _ _ | .resend _ _ | .sendAck _ | .recvAck _ _ => .isTrue trivial

/-- What is known of a pack in the ring: its number. -/
def Numbered (n : Nat) (d : Dgram) : Prop := d.head.sn = sn n

theorem Event.SlotOk.of_recv {e : Event} (h : RecvEvent Numbered e ∨ e.isRecv = false) : e.SlotOk := by
  rcases h with (⟨n, d, hd, rfl | rfl⟩ | ⟨m, rfl⟩) | he
  · exact hd
  · rfl
  · trivial
  · cases e <;> trivial

structure SlotInv (k : Nat) (p : Peer) : Prop where
  trace : ∀ e ∈ p.trace, e.SlotOk
  recv : p.up = true → ∃ n, RecvInv Numbered k n p.chan.toCore

theorem slotOk_append {l new : List Event} (h : ∀ e ∈ l, e.SlotOk)
    (hnew : Emits (fun e => RecvEvent Numbered e ∨ e.isRecv = false) [] new) : ∀ e ∈ l ++ new, e.SlotOk := by
  obtain ⟨l', rfl, hl'⟩ := hnew
  intro e he
  rcases List.mem_append.mp he with he | he
  · exact h e he
  · exact Event.SlotOk.of_recv (hl' e he)

theorem SlotInv.step {k : Nat} (p : Peer) (call : Call) (h : SlotInv k p) (hcall : call.InRing p) :
    SlotInv k (p.step call) := by
  rw [Peer.step]
  by_cases hup : p.up = true
  · rw [if_pos hup]
    obtain ⟨n, hn⟩ := h.recv hup
    have hquiet : RecvInv Numbered k n p.chan.quiet.toCore := ⟨hn.sorted, hn.empty, hn.ready.1, hn.ready.2⟩
    by_cases hpack : ∃ e d, call = .recvPack e d
    · obtain ⟨e, d, rfl⟩ := hpack
      have hJ : Follows Numbered (fun _ _ _ => True) := fun _ _ _ _ _ _ => trivial
      obtain ⟨p', hp⟩ := hquiet.recvPack hJ e (d := d) (fun _ _ _ hs => hs) hcall trivial
      exact ⟨slotOk_append h.trace hp.log, fun hr => ⟨p', hp.inv hr⟩⟩
    · push Not at hpack
      have ha := (call.apart hpack p.chan.quiet).1
      exact ⟨slotOk_append h.trace (ha.log.mono fun _ => Or.inr), fun _ => ⟨n, hquiet.apart ha⟩⟩
  · rw [if_neg hup]
    exact h

/-- As long as no early pack that is kept lies a ring or more ahead, every pack is consumed at the position
of its number and no slot is overwritten. -/
theorem recv_slots {k : Nat} (hk : k ≤ 15) (cid : UInt16) (clock : UInt64) (calls : List Call)
    (h : Along Peer.step Call.InRing (Peer.fresh (sn (2 ^ k)) cid clock) calls) :
    ∀ e ∈ (run Peer.step (Peer.fresh (sn (2 ^ k)) cid clock) calls).trace, e.SlotOk := by
  have hfresh : SlotInv k (Peer.fresh (sn (2 ^ k)) cid clock) :=
    ⟨by simp [Peer.fresh], fun _ => ⟨0, RecvInv.create hk cid clock⟩⟩
  exact (h.invariant SlotInv.step hfresh).trace

/-- A data pack of one whole empty message. -/
def emptyPack (n : UInt16) : Dgram := ⟨{ Head.zero with type := xpackTypeMsg, sn := n, range := 1 }, []⟩

/-- Every send succeeds and memory never runs out. -/
def Env.fine : Env := ⟨0, fun _ => 0, fun _ => true, fun _ => true⟩

theorem recv_slots_swapped :
    6 ≤ 15 ∧
      ∀ e ∈ (run Peer.step (Peer.fresh (sn (2 ^ 6)) 0 0)
        [.recvPack Env.fine (emptyPack 1), .recvPack Env.fine (emptyPack 0)]).trace, e.SlotOk := by
  refine ⟨by decide, recv_slots (by decide) 0 0 _ ?_⟩
  refine ⟨?_, ?_, trivial⟩
  · decide +kernel
  · decide +kernel

/-- Pack 65 is kept in the slot of pack 1 and consumed in its place. -/
theorem recv_slots_overshoot :
    ¬ ∀ e ∈ (run Peer.step (Peer.fresh 64 0 0)
      [.recvPack Env.fine (emptyPack 65), .recvPack Env.fine (emptyPack 0)]).trace, e.SlotOk := by
  decide +kernel

end Wenas.Xmsger
