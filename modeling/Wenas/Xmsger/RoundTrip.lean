import Wenas.Xmsger.Assembly

/-!
# A message cut up and joined again

`xmsg_fixed` counts the packs of a message with 64 bits, a pack announces the count with 16, and
`xchannel_recv_msg` counts down from what the first pack announces. `xmsger_send` accepts any length,
and the message arrives exactly if its number of packs fits the field.
-/
namespace Wenas.Xmsger

open Wenas.Serial

/-- The pack just cut has been sent and acknowledged: its slot is free again. -/
def drained (c : Channel) : Channel :=
  { c with sendbuf := { c.sendbuf with rpos := c.sendbuf.wpos, spos := c.sendbuf.wpos } }

/-- Packs are cut until the messages of the channel are written; at most `n` of them. -/
def cutAll : Nat → Channel → List Dgram
  | 0, _ => []
  | n + 1, c =>
    if 0 < c.msgbuf.sendable then
      ((xchannelSerialMsg c).sendbuf.buf c.sendbuf.wslot).dgram :: cutAll n (drained (xchannelSerialMsg c))
    else []

/-- The packs of a message on a fresh channel. Every pack but that of an empty message takes a byte. -/
def packsOf (m : Message) (serialRange cid : UInt16) (clock : UInt64) : List Dgram :=
  cutAll (m.data.length + 1) (xmsgerSend m (xchannelCreate serialRange cid clock)).1

/-- The pack is the next one, and a new message gets its memory. -/
def feed (now : UInt64) (c : Channel) (d : Dgram) : Channel :=
  (xchannelRecvMsg ⟨now, fun _ => 0, fun _ => true, fun _ => true⟩ (placeNext d c)).1

/-- What a fresh channel hands up of the packs of a message. -/
def received (ds : List Dgram) (serialRange cid : UInt16) (clock now : UInt64) : List RFrame :=
  handed (ds.foldl (feed now) (xchannelCreate serialRange cid clock)).log

/-! ### Cutting -/

/-- `k` packs of the only message have been cut and drained. -/
structure Cutting (m : Message) (k : Nat) (c : Channel) : Prop where
  frames : c.frames = [frameAt m k 0]
  slot : c.msgbuf.buf c.msgbuf.sslot = some 0
  sendable : c.msgbuf.wpos - c.msgbuf.spos = 1
  range : c.sendbuf.range ≠ 0
  empty : c.sendbuf.rpos = c.sendbuf.wpos
  wpos : c.sendbuf.wpos = sn k

theorem Cutting.writable {m : Message} {k : Nat} {c : Channel} (h : Cutting m k c) : 0 < c.sendbuf.writable := by
  have hrange : c.sendbuf.range.toNat ≠ 0 := by
    have := h.range
    rwa [Ne, ← UInt16.toNat_zero, UInt16.toNat_inj]
  have hr := c.sendbuf.range.toNat_lt
  have hw := c.sendbuf.wpos.toNat_lt
  rw [Ring.writable, h.empty, UInt16.lt_iff_toNat_lt, UInt16.toNat_zero, UInt16.toNat_add, UInt16.toNat_sub]
  omega

/-- A fresh channel has room for a message. -/
theorem xmsgerSend_fresh (m : Message) (r cid : UInt16) (clock : UInt64) :
    xmsgerSend m (xchannelCreate r cid clock) = (pushMsg m (xchannelCreate r cid clock), true) := by
  have hroom : 0 < (xchannelCreate r cid clock).msgbuf.writable := by
    show (0 : UInt16) < 8 - 0 + 0
    decide
  rw [xmsgerSend, if_pos hroom]

theorem Cutting.start (m : Message) {r : UInt16} (hr : r ≠ 0) (cid : UInt16) (clock : UInt64) :
    Cutting m 0 (xmsgerSend m (xchannelCreate r cid clock)).1 := by
  rw [xmsgerSend_fresh]
  constructor
  · show [xmsgFixed m] = [frameAt m 0 0]
    rw [xmsgFixed_eq]
  · exact Ring.put_buf_self _ _ _
  · show (0 + 1 - 0 : UInt16) = 1
    decide
  · exact hr
  · rfl
  · rfl

/-- The pack cut next is pack `k`; the message is written with its last one. -/
theorem Cutting.cut {m : Message} {k : Nat} {c : Channel} (h : Cutting m k c) (hk : k < packs m) :
    IsFrag ((xchannelSerialMsg c).sendbuf.buf c.sendbuf.wslot).dgram k m k ∧
      if k + 1 = packs m then ¬ 0 < (drained (xchannelSerialMsg c)).msgbuf.sendable
      else Cutting m (k + 1) (drained (xchannelSerialMsg c)) := by
  have hsend : 0 < c.msgbuf.sendable := by
    rw [Ring.sendable, h.sendable]
    decide
  have hframe : c.frames[0]? = some (frameAt m k 0) := by rw [h.frames]; rfl
  have heq := xchannelSerialMsg_eq ⟨h.writable, hsend⟩ h.slot hframe
  rw [cut_frameAt m k 0 hk] at heq
  have hbuf : (xchannelSerialMsg c).sendbuf = { c.sendbuf.put c.sendbuf.wslot
      (serialPack c 0 (frameAt m k 0) (c.sendbuf.buf c.sendbuf.wslot)) with wpos := c.sendbuf.wpos + 1 } :=
    congrArg Core.sendbuf heq
  have hmsgbuf : (xchannelSerialMsg c).msgbuf =
      if k + 1 = packs m then { c.msgbuf with spos := c.msgbuf.spos + 1 } else c.msgbuf := by
    have hq := congrArg Core.msgbuf heq
    have hlast : (frameAt m (k + 1) 0).spos = (frameAt m (k + 1) 0).wpos ↔ k + 1 = packs m := ofNat_bytes_eq_iff m k hk
    simpa only [hlast] using hq
  refine ⟨?_, ?_⟩
  · rw [hbuf]
    have hfrag := isFrag_serialPack h.wpos hk 0 0 (c.sendbuf.buf c.sendbuf.wslot)
    simpa using hfrag
  · have hone : c.msgbuf.wpos = c.msgbuf.spos + 1 := by
      have := h.sendable
      rw [← this]
      simp
    split
    · rename_i hl
      rw [if_pos hl] at hmsgbuf
      have hempty : (drained (xchannelSerialMsg c)).msgbuf.sendable = 0 := by
        show (xchannelSerialMsg c).msgbuf.wpos - (xchannelSerialMsg c).msgbuf.spos = 0
        rw [hmsgbuf, hone]
        simp
      rw [hempty]
      decide
    · rename_i hl
      rw [if_neg hl] at hmsgbuf
      constructor
      · have hf : (xchannelSerialMsg c).frames = c.frames.set 0 (frameAt m (k + 1) 0) := congrArg Core.frames heq
        show (xchannelSerialMsg c).frames = _
        rw [hf, h.frames]
        rfl
      · show (xchannelSerialMsg c).msgbuf.buf (xchannelSerialMsg c).msgbuf.sslot = _
        rw [hmsgbuf]
        exact h.slot
      · show (xchannelSerialMsg c).msgbuf.wpos - (xchannelSerialMsg c).msgbuf.spos = 1
        rw [hmsgbuf]
        exact h.sendable
      · show (xchannelSerialMsg c).sendbuf.range ≠ 0
        rw [hbuf]
        exact h.range
      · rfl
      · show (xchannelSerialMsg c).sendbuf.wpos = _
        rw [hbuf]
        show c.sendbuf.wpos + 1 = _
        rw [h.wpos, sn_succ]

/-- The packs from number `k` on. -/
def Frags (m : Message) (k : Nat) (ds : List Dgram) : Prop :=
  ds.length = packs m - k ∧ ∀ i d, ds[i]? = some d → IsFrag d (k + i) m (k + i)

theorem Cutting.all {m : Message} {k : Nat} {c : Channel} (h : Cutting m k c) (hk : k < packs m) {n : Nat}
    (hn : packs m - k ≤ n) : Frags m k (cutAll n c) := by
  induction n generalizing k c with
  | zero => omega
  | succ n ih =>
    have hsend : 0 < c.msgbuf.sendable := by
      rw [Ring.sendable, h.sendable]
      decide
    obtain ⟨hfrag, hnext⟩ := h.cut hk
    rw [cutAll, if_pos hsend]
    have hrest : Frags m (k + 1) (cutAll n (drained (xchannelSerialMsg c))) := by
      by_cases hl : k + 1 = packs m
      · rw [if_pos hl] at hnext
        have hnil : cutAll n (drained (xchannelSerialMsg c)) = [] := by
          cases n with
          | zero => rfl
          | succ n => rw [cutAll, if_neg hnext]
        rw [hnil]
        exact ⟨by simp; omega, by simp⟩
      · rw [if_neg hl] at hnext
        exact ih hnext (by omega) (by omega)
    refine ⟨?_, ?_⟩
    · rw [List.length_cons, hrest.1]
      omega
    · intro i d hd
      cases i with
      | zero =>
        rw [List.getElem?_cons_zero, Option.some.injEq] at hd
        rw [← hd]
        exact hfrag
      | succ i =>
        rw [List.getElem?_cons_succ] at hd
        have hi := hrest.2 i d hd
        rwa [Nat.add_right_comm, Nat.add_assoc] at hi

theorem packs_le_length (m : Message) : packs m ≤ m.data.length + 1 := by
  unfold packs
  omega

theorem packsOf_frags (m : Message) {r : UInt16} (hr : r ≠ 0) (cid : UInt16) (clock : UInt64) :
    Frags m 0 (packsOf m r cid clock) :=
  (Cutting.start m hr cid clock).all (packs_pos m) (packs_le_length m)

/-! ### Joining -/

/-- The number of packs as the first pack announces it. -/
def announced (m : Message) : Nat := packs m % 2 ^ 16

/-- `j` packs of the message have been joined and none of them was the last of the announced number. -/
structure Joining (m : Message) (j : Nat) (c : Channel) : Prop where
  empty : ∀ i, c.recvbuf.buf i = none
  quiet : handed c.log = []
  first : j = 0 → c.msg = none
  later : j ≠ 0 → ∃ f, c.msg = some f ∧ f.type = m.type ∧ f.data = m.data.take (bytes m j) ∧
    f.range.toNat = (announced m + 2 ^ 64 - j) % 2 ^ 64

theorem feed_eq {c : Channel} (h : ∀ i, c.recvbuf.buf i = none) (now : UInt64) (d : Dgram) :
    feed now c d = recvMsgOne d { placeNext d c with recvTs := now } := by
  rw [feed, recvMsg_placeNext h, if_neg (by simp)]

theorem Joining.extend {m : Message} {j n : Nat} {c : Channel} (h : Joining m j c) (hj : j < packs m) {d : Dgram}
    (hd : IsFrag d n m j) :
    (RFrame.extend c.msg d).type = m.type ∧ (RFrame.extend c.msg d).data = m.data.take (bytes m (j + 1)) ∧
      (RFrame.extend c.msg d).range.toNat = (announced m + 2 ^ 64 - (j + 1)) % 2 ^ 64 := by
  have hbody : d.body.take d.head.len.toNat = frag m j := by
    rw [hd.len, packLen_toNat, hd.body, ← frag_length m j hj, List.take_length]
  have hsplit := take_bytes_succ m j hj
  have hp := packs_lt m
  by_cases hz : j = 0
  · subst hz
    rw [h.first rfl]
    have hb : bytes m 0 = 0 := by simp [bytes]
    refine ⟨hd.type, ?_, ?_⟩
    · show [] ++ d.body.take d.head.len.toNat = _
      rw [hbody, hsplit, hb]
      rfl
    · show (d.head.range.toUInt64 - 1).toNat = _
      rw [hd.range, UInt64.toNat_sub, UInt16.toNat_toUInt64, UInt64.toNat_toUInt16, UInt64.toNat_ofNat',
        UInt64.toNat_one, announced]
      omega
  · obtain ⟨f, hf, ht, hdata, hr⟩ := h.later hz
    rw [hf]
    refine ⟨ht, ?_, ?_⟩
    · show f.data ++ d.body.take d.head.len.toNat = _
      rw [hbody, hsplit, hdata]
    · show (f.range - 1).toNat = _
      rw [UInt64.toNat_sub, UInt64.toNat_one, hr]
      unfold announced
      omega

/-- One more pack: the message is handed up with the last of the announced number. -/
theorem Joining.next {m : Message} {j n : Nat} {c : Channel} (h : Joining m j c) (hj : j < packs m) {d : Dgram}
    (hd : IsFrag d n m j) (now : UInt64) :
    if j + 1 = announced m then
      ∃ f, handed (feed now c d).log = [f] ∧ f.content = (m.type, m.data.take (bytes m (j + 1)))
    else Joining m (j + 1) (feed now c d) := by
  obtain ⟨htype, hdata, hrange⟩ := h.extend hj hd
  have hp := packs_lt m
  have hlog : handed (c.log ++ [.consume c.recvbuf.rpos d]) = [] := by
    rw [handed_append, h.quiet]
    rfl
  rw [feed_eq h.empty]
  split
  · rename_i hl
    have hz : (RFrame.extend c.msg d).range = 0 := by
      apply UInt64.toNat_inj.mp
      rw [hrange, UInt64.toNat_zero, ← hl]
      omega
    refine ⟨RFrame.extend c.msg d, ?_, ?_⟩
    · rw [recvMsgOne]
      dsimp only
      rw [if_pos (show (RFrame.extend (placeNext d c).msg d).range = 0 from hz)]
      show handed ((c.log ++ [.consume c.recvbuf.rpos d]) ++ [.fromPeer (RFrame.extend c.msg d)]) = _
      rw [handed_append, hlog]
      rfl
    · rw [RFrame.content, htype, hdata]
  · rename_i hl
    have hnz : (RFrame.extend c.msg d).range ≠ 0 := by
      intro hz
      rw [hz, UInt64.toNat_zero] at hrange
      unfold announced at hrange hl
      omega
    have hone : (recvMsgOne d { placeNext d c with recvTs := now }).log = c.log ++ [.consume c.recvbuf.rpos d] ∧
        (recvMsgOne d { placeNext d c with recvTs := now }).msg = some (RFrame.extend c.msg d) := by
      rw [recvMsgOne]
      dsimp only
      rw [if_neg (show ¬ (RFrame.extend (placeNext d c).msg d).range = 0 from hnz)]
      exact ⟨rfl, rfl⟩
    refine ⟨recvMsgOne_empty h.empty d now, ?_, fun hf => absurd hf (Nat.succ_ne_zero j), fun _ => ?_⟩
    · rw [hone.1, hlog]
    · exact ⟨_, hone.2, htype, hdata, hrange⟩

/-- What was handed up stays handed up. -/
theorem feed_grows {c : Channel} (h : ∀ i, c.recvbuf.buf i = none) (now : UInt64) (d : Dgram) :
    (∀ i, (feed now c d).recvbuf.buf i = none) ∧ ∃ l, (feed now c d).log = c.log ++ l := by
  rw [feed_eq h]
  refine ⟨recvMsgOne_empty h d now, ?_⟩
  rw [recvMsgOne]
  dsimp only
  split
  · exact ⟨_, List.append_assoc c.log _ _⟩
  · exact ⟨_, rfl⟩

theorem feed_all_grows (now : UInt64) (ds : List Dgram) {c : Channel} (h : ∀ i, c.recvbuf.buf i = none) :
    ∃ l, (ds.foldl (feed now) c).log = c.log ++ l := by
  induction ds generalizing c with
  | nil => exact ⟨[], by simp⟩
  | cons d ds ih =>
    obtain ⟨hempty, l, hl⟩ := feed_grows h now d
    obtain ⟨l', hl'⟩ := ih hempty
    refine ⟨l ++ l', ?_⟩
    rw [List.foldl_cons, hl', hl, List.append_assoc]

theorem Frags.cons {m : Message} {k : Nat} {d : Dgram} {ds : List Dgram} (h : Frags m k (d :: ds)) :
    k < packs m ∧ IsFrag d k m k ∧ Frags m (k + 1) ds := by
  have hlen := h.1
  rw [List.length_cons] at hlen
  refine ⟨by omega, h.2 0 d rfl, by omega, ?_⟩
  intro i d' hd'
  have hi := h.2 (i + 1) d' hd'
  rwa [Nat.add_left_comm, Nat.add_comm i] at hi

/-- With no number announced, nothing is ever handed up. -/
theorem Joining.never {m : Message} (hq : announced m = 0) (now : UInt64) (ds : List Dgram) {k : Nat} {c : Channel}
    (h : Joining m k c) (hds : Frags m k ds) : handed (ds.foldl (feed now) c).log = [] := by
  induction ds generalizing k c with
  | nil => exact h.quiet
  | cons d ds ih =>
    obtain ⟨hk, hd, hrest⟩ := hds.cons
    have hnext := h.next hk hd now
    rw [if_neg (by omega)] at hnext
    exact ih hnext hrest

/-- The first message handed up holds the bytes of the announced packs; no other follows if these are all. -/
theorem Joining.once {m : Message} (now : UInt64) (ds : List Dgram) {k : Nat} {c : Channel} (hk : k < announced m)
    (h : Joining m k c) (hds : Frags m k ds) :
    ∃ f rest, handed (ds.foldl (feed now) c).log = f :: rest ∧
      f.content = (m.type, m.data.take (bytes m (announced m))) ∧ (announced m = packs m → rest = []) := by
  induction ds generalizing k c with
  | nil =>
    have hlen := hds.1
    have hle : announced m ≤ packs m := Nat.mod_le _ _
    simp only [List.length_nil] at hlen
    omega
  | cons d ds ih =>
    obtain ⟨hkp, hd, hrest⟩ := hds.cons
    have hnext := h.next hkp hd now
    by_cases hl : k + 1 = announced m
    · rw [if_pos hl] at hnext
      obtain ⟨f, hf, hcontent⟩ := hnext
      obtain ⟨l, hgrow⟩ := feed_all_grows now ds (feed_grows h.empty now d).1
      rw [hl] at hcontent
      refine ⟨f, handed l, ?_, hcontent, ?_⟩
      · rw [List.foldl_cons, hgrow, handed_append, hf]
        rfl
      · intro hall
        have hnil : ds = [] := by
          rw [← List.length_eq_zero_iff, hrest.1]
          omega
        subst hnil
        have hl : l = [] := by simpa using hgrow
        rw [hl]
        rfl
    · rw [if_neg hl] at hnext
      exact ih (by omega) hnext hrest

theorem Joining.fresh (m : Message) (r cid : UInt16) (clock : UInt64) : Joining m 0 (xchannelCreate r cid clock) :=
  ⟨fun _ => rfl, rfl, fun _ => rfl, fun h => absurd rfl h⟩

theorem packs_lt_iff (m : Message) : packs m < 2 ^ 16 ↔ m.data.length ≤ 65535 * xbodySize := by
  unfold packs xbodySize
  omega

/-- Packs that are all but the last of a message hold less than the whole. -/
theorem take_bytes_ne {m : Message} {k : Nat} (h : k < packs m) (hk : 0 < k) : m.data.take (bytes m k) ≠ m.data := by
  intro he
  have hlen := congrArg List.length he
  have hspec := packs_spec m h
  have hlast := packs_spec m (show k - 1 < packs m by omega)
  rw [List.length_take, Nat.min_eq_left (bytes_le m k)] at hlen
  unfold bytes at hlen
  omega

/-- What is handed up of the packs of a message. -/
theorem received_packs (m : Message) {ds : List Dgram} (h : Frags m 0 ds) (r cid : UInt16) (clock now : UInt64) :
    (received ds r cid clock now).map RFrame.content = [m.content] ↔ m.data.length ≤ 65535 * xbodySize := by
  have hstart := Joining.fresh m r cid clock
  rw [← packs_lt_iff, received]
  constructor
  · intro hone
    by_contra hlarge
    by_cases hq : announced m = 0
    · rw [hstart.never hq now ds h] at hone
      simp at hone
    · obtain ⟨f, rest, hf, hcontent, -⟩ := hstart.once now ds (by omega) h
      rw [hf, List.map_cons, hcontent] at hone
      have hlt : announced m < packs m := by
        have : announced m < 2 ^ 16 := Nat.mod_lt _ (by decide)
        omega
      have htake : m.data.take (bytes m (announced m)) = m.data := by
        simp only [Message.content, List.cons.injEq, Prod.mk.injEq, true_and] at hone
        exact hone.1
      exact take_bytes_ne hlt (by omega) htake
  · intro hlt
    have hall : announced m = packs m := Nat.mod_eq_of_lt hlt
    obtain ⟨f, rest, hf, hcontent, hrest⟩ := hstart.once now ds (by rw [hall]; exact packs_pos m) h
    rw [hf, hrest hall, List.map_singleton, hcontent, hall, bytes_of_packs_le m _ (Nat.le_refl _), List.take_length]
    rfl

/-- A message is cut and joined to itself exactly if its packs can be counted with sixteen bits. -/
theorem fragments_joined (m : Message) (r cid : UInt16) (hr : r ≠ 0) (r' cid' : UInt16) (clock clock' now : UInt64) :
    (received (packsOf m r cid clock) r' cid' clock' now).map RFrame.content = [m.content] ↔
      m.data.length ≤ 65535 * xbodySize :=
  received_packs m (packsOf_frags m hr cid clock) r' cid' clock' now

/-- Three packs. -/
def threePacks : Message := ⟨2, List.replicate 3000 7, by rw [List.length_replicate]; decide⟩

theorem fragments_joined_three :
    (received (packsOf threePacks 64 0 0) 64 0 0 0).map RFrame.content = [threePacks.content] :=
  (fragments_joined threePacks 64 0 (by decide) 64 0 0 0 0).mpr (by rw [threePacks, List.length_replicate]; decide)

/-- One byte more than 65535 packs hold. -/
def tooLong : Message := ⟨2, List.replicate 83884801 0, by rw [List.length_replicate]; decide⟩

theorem fragments_lost :
    (xmsgerSend tooLong (xchannelCreate 64 0 0)).2 = true ∧
      (received (packsOf tooLong 64 0 0) 64 0 0 0).map RFrame.content ≠ [tooLong.content] := by
  refine ⟨by rw [xmsgerSend_fresh], ?_⟩
  intro h
  have hle := (received_packs tooLong (packsOf_frags tooLong (by decide) 0 0) 64 0 0 0).mp h
  rw [tooLong, List.length_replicate] at hle
  exact absurd hle (by decide)

end Wenas.Xmsger
