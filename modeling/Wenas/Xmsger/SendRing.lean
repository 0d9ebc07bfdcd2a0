import Wenas.Xmsger.Fragment

/-!
# The invariant of the send side

`SendInv` ties the two rings of the sender to the numbered pack stream: how many
packs have been cut, sent and released, and which message each of these
positions lies in. The timing fields of a channel take no part in it.
-/
namespace Wenas.Xmsger

open Wenas.Serial

/-- The head and body are those of pack `k` of message `m`, under stream number `n`. -/
structure IsFrag (d : Dgram) (n : Nat) (m : Message) (k : Nat) : Prop where
  sn : d.head.sn = sn n
  type : d.head.type = m.type
  len : d.head.len = UInt16.ofNat (bytes m (k + 1) - bytes m k)
  range : d.head.range = (UInt64.ofNat (packs m - k)).toUInt16
  body : d.body = frag m k

/-- Counters without wrap-around: packs released, sent and cut, messages complete and written. -/
structure Marks where
  released : Nat
  sent : Nat
  cut : Nat
  done : Nat
  written : Nat

def messageLog (i : Nat) (m : Message) : List Event :=
  List.replicate (packs m) (.release i) ++ [.toPeer i (some i)]

/-- The releases of `done` whole messages and of `rest` packs of the next one. -/
def releaseLog (ms : List Message) (done rest : Nat) : List Event :=
  (ms.take done).zipIdx.flatMap (fun p => messageLog p.2 p.1) ++ List.replicate rest (.release done)

/-- A slot of the send ring with pack number `n` of the messages `ms`. -/
def Carries (ms : List Message) (n : Nat) (p : Pack) : Prop :=
  ∃ i m j, At ms n i m j ∧ p.msg = some i ∧ IsFrag p.dgram n m j

/-- The messages `ms` have been accepted, and the rings and frames stand where `g` says.
`past` are the releases before those in the log. -/
structure SendInv (k : Nat) (past : List Event) (ms : List Message) (x : Core) (g : Marks) : Prop where
  ring : x.sendbuf.Holds (Carries ms) (fun p => p.ts = 0) k g.released g.sent g.cut
  queue : x.msgbuf.Holds (fun i o => o = some i) (fun o => o = none) 3 g.done g.written ms.length
  length : x.frames.length = ms.length
  frames : ∀ i m, ms[i]? = some m →
    x.frames[i]? = some (frameAt m (g.cut - start ms i) (g.released - start ms i))
  cutAt : Cursor ms g.cut g.written
  doneAt : Cursor ms g.released g.done
  log : past ++ x.log.filter Event.isRelease = releaseLog ms g.done (g.released - start ms g.done)

section

variable {k : Nat} {past : List Event} {ms : List Message} {c : Channel} {x : Core} {g : Marks}

/-- A fresh channel has cut, sent and released nothing. -/
theorem SendInv.create (hk : k ≤ 15) (cid : UInt16) (clock : UInt64) :
    SendInv k [] [] (xchannelCreate (sn (2 ^ k)) cid clock).toCore ⟨0, 0, 0, 0, 0⟩ where
  ring :=
    { small := hk, range := rfl, rpos := rfl, spos := rfl, wpos := rfl, read_le := Nat.le_refl 0
      send_le := Nat.le_refl 0, room := Nat.zero_le _, used := by intro n _ h; exact absurd h (Nat.not_lt_zero n)
      free := fun _ _ _ => rfl }
  queue :=
    { small := by decide, range := rfl, rpos := rfl, spos := rfl, wpos := rfl, read_le := Nat.le_refl 0
      send_le := Nat.le_refl 0, room := Nat.zero_le _, used := by intro n _ h; exact absurd h (Nat.not_lt_zero n)
      free := fun _ _ _ => rfl }
  length := rfl
  frames := by intro i m h; simp at h
  cutAt := Cursor.zero _
  doneAt := Cursor.zero _
  log := by simp [xchannelCreate, releaseLog]

/-! ### A new message -/

theorem Carries.append {ms : List Message} {n : Nat} {p : Pack} (h : Carries ms n p) (rest : List Message) :
    Carries (ms ++ rest) n p := by
  obtain ⟨i, m, j, ha, hp⟩ := h
  exact ⟨i, m, j, ha.append rest, hp⟩

theorem releaseLog_append (ms : List Message) (m : Message) {done : Nat} (h : done ≤ ms.length) (rest : Nat) :
    releaseLog (ms ++ [m]) done rest = releaseLog ms done rest := by
  simp [releaseLog, List.take_append_of_le_length h]

theorem Cursor.le_start_length {ms : List Message} {n i : Nat} (h : Cursor ms n i) : n ≤ start ms ms.length := by
  by_cases he : i = ms.length
  · have := h.stop he
    rw [he] at this
    omega
  · have hl : i < ms.length := by have := h.le; omega
    exact le_of_lt ((h.at (List.getElem?_eq_getElem hl)).next_le hl)

/-- An accepted message takes the next slot of the message ring. -/
theorem SendInv.push (h : SendInv k past ms c.toCore g) (hroom : ms.length < g.done + 8) (m : Message) :
    SendInv k past (ms ++ [m]) (pushMsg m c).toCore g := by
  have hdone : g.done ≤ ms.length := h.doneAt.le
  have hlen := h.length
  refine { ring := ?_, queue := ?_, length := ?_, frames := ?_, cutAt := ?_, doneAt := ?_, log := ?_ }
  · exact h.ring.mono (fun _ _ hp => hp.append [m])
  · have := h.queue.push hroom (x := some ms.length) rfl
    simpa [pushMsg, hlen] using this
  · simp [pushMsg, hlen]
  · intro i m' hi
    by_cases hlt : i < ms.length
    · rw [List.getElem?_append_left hlt] at hi
      rw [start_append [m] (by omega)]
      simp only [pushMsg]
      rw [List.getElem?_append_left (by omega)]
      exact h.frames i m' hi
    · have hie : i = ms.length := by
        have := (List.getElem?_eq_some_iff.mp hi).1
        simp only [List.length_append, List.length_singleton] at this
        omega
      subst hie
      have hm : m = m' := by simpa using hi
      subst hm
      have hcut := h.cutAt.le_start_length
      have hrel := h.doneAt.le_start_length
      have h₁ : g.cut - start ms ms.length = 0 := by omega
      have h₂ : g.released - start ms ms.length = 0 := by omega
      rw [start_append [m] (Nat.le_refl _), h₁, h₂, ← xmsgFixed_eq, ← hlen]
      simp [pushMsg]
  · exact h.cutAt.append m
  · exact h.doneAt.append m
  · rw [releaseLog_append _ _ hdone, start_append [m] hdone]
    exact h.log

/-! ### Cutting a pack -/

/-- The next pack comes from the message the cursor of the cut packs lies in. -/
theorem SendInv.next_cut (h : SendInv k past ms x g)
    (hw : g.written < ms.length) :
    ∃ m j, At ms g.cut g.written m j ∧ x.msgbuf.buf x.msgbuf.sslot = some g.written ∧
      x.frames[g.written]? = some (frameAt m j (g.released - start ms g.written)) := by
  have hm := List.getElem?_eq_getElem hw
  refine ⟨_, _, h.cutAt.at hm, ?_, h.frames _ _ hm⟩
  rw [h.queue.sslot]
  exact h.queue.used _ h.queue.read_le hw

/-- The slot written by `xchannel_serial_msg` is the next pack of the stream. -/
theorem isFrag_serialPack {c : Channel} {n : Nat} (hw : c.sendbuf.wpos = sn n) {m : Message} {j : Nat}
    (hj : j < packs m) (i r : Nat) (old : Pack) : IsFrag (serialPack c i (frameAt m j r) old).dgram n m j where
  sn := hw
  type := rfl
  len := packLen_frameAt m j r hj
  range := rfl
  body := by
    have hb := bytes_lt m j
    have hn : (UInt64.ofNat (bytes m j)).toNat = bytes m j := by
      rw [UInt64.toNat_ofNat']
      omega
    change (m.data.drop (UInt64.ofNat (bytes m j)).toNat).take (frameAt m j r).packLen.toNat = frag m j
    rw [packLen_frameAt m j r hj, packLen_toNat, hn, frag_eq m j hj]

/-- Setting the frame of one message to its new counts leaves every frame at its counts. -/
theorem frames_set {ms : List Message} {fs : List Frame} {n i k : Nat} {m : Message} (ha : At ms n i m k)
    {a r : Nat → Nat} (hfs : ∀ i m, ms[i]? = some m → fs[i]? = some (frameAt m (a i) (r i))) (a' r' : Nat → Nat)
    (hother : ∀ i' m', i' ≠ i → ms[i']? = some m' → frameAt m' (a i') (r i') = frameAt m' (a' i') (r' i'))
    (i' : Nat) (m' : Message) (hm' : ms[i']? = some m') :
    (fs.set i (frameAt m (a' i) (r' i)))[i']? = some (frameAt m' (a' i') (r' i')) := by
  by_cases hi : i' = i
  · subst hi
    have hm : m = m' := by simpa using ha.get.symm.trans hm'
    subst hm
    have hl := (List.getElem?_eq_some_iff.mp (hfs _ _ hm')).1
    simp [hl]
  · rw [List.getElem?_set_ne (Ne.symm hi), hfs _ _ hm', hother _ _ hi hm']

theorem xchannelSerialMsg_eq {c : Channel} {i : Nat} {f : Frame}
    (hroom : 0 < c.sendbuf.writable ∧ 0 < c.msgbuf.sendable) (hi : c.msgbuf.buf c.msgbuf.sslot = some i)
    (hf : c.frames[i]? = some f) :
    (xchannelSerialMsg c).toCore =
      { c.toCore with
        frames := c.frames.set i f.cut
        sendbuf :=
          { c.sendbuf.put c.sendbuf.wslot (serialPack c i f (c.sendbuf.buf c.sendbuf.wslot)) with
            wpos := c.sendbuf.wpos + 1 }
        msgbuf := if f.cut.spos = f.cut.wpos then { c.msgbuf with spos := c.msgbuf.spos + 1 } else c.msgbuf } := by
  simp only [xchannelSerialMsg, hroom, hi, hf, and_self, if_true]

theorem SendInv.cut (h : SendInv k past ms c.toCore g)
    (hroom : g.cut < g.released + 2 ^ k) (hw : g.written < ms.length) :
    ∃ w, SendInv k past ms (xchannelSerialMsg c).toCore { g with cut := g.cut + 1, written := w } := by
  obtain ⟨m, j, ha, hslot, hf⟩ := h.next_cut hw
  have hj : j < packs m := ha.lt
  have hne := And.intro (h.ring.writable_pos.mpr hroom) (h.queue.sendable_pos.mpr hw)
  have hcut := cut_frameAt m j (g.released - start ms g.written) hj
  have hlast := ofNat_bytes_eq_iff m j hj
  have heq := xchannelSerialMsg_eq hne hslot hf
  rw [hcut] at heq
  refine ⟨if j + 1 = packs m then g.written + 1 else g.written, ?_⟩
  rw [heq]
  refine { ring := ?_, queue := ?_, length := ?_, frames := ?_, cutAt := ?_, doneAt := h.doneAt, log := h.log }
  · exact h.ring.push hroom ⟨_, m, j, ha, rfl, isFrag_serialPack h.ring.wpos hj _ _ _⟩
  · change Ring.Holds _ _ 3 _ _ _ (if UInt64.ofNat (bytes m (j + 1)) = UInt64.ofNat m.data.length then _ else _)
    simp only [hlast]
    split
    · exact h.queue.send hw
    · exact h.queue
  · simpa using h.length
  · have hj' : j + 1 = g.cut + 1 - start ms g.written := by
      have := ha.eq
      omega
    rw [hj']
    refine frames_set ha h.frames (fun i => g.cut + 1 - start ms i) (fun i => g.released - start ms i) ?_
    intro i' m' hi hm'
    exact frameAt_congr ((ha.other hi hm').imp Eq.symm id) (Or.inl rfl)
  · exact Cursor.next ha

theorem SendInv.serial (h : SendInv k past ms c.toCore g) :
    (xchannelSerialMsg c).log = c.log ∧
      ∃ n w, g.cut ≤ n ∧ SendInv k past ms (xchannelSerialMsg c).toCore { g with cut := n, written := w } := by
  by_cases hroom : 0 < c.sendbuf.writable ∧ 0 < c.msgbuf.sendable
  · have hw := h.queue.sendable_pos.mp hroom.2
    obtain ⟨m, j, -, hslot, hf⟩ := h.next_cut hw
    obtain ⟨w, hcut⟩ := h.cut (h.ring.writable_pos.mp hroom.1) hw
    refine ⟨?_, _, w, Nat.le_succ _, hcut⟩
    rw [xchannelSerialMsg_eq hroom hslot hf]
  · rw [xchannelSerialMsg, if_neg hroom]
    exact ⟨rfl, g.cut, g.written, Nat.le_refl _, h⟩

/-! ### Releasing a pack -/

theorem releaseLog_release (ms : List Message) (done rest : Nat) :
    releaseLog ms done rest ++ [.release done] = releaseLog ms done (rest + 1) := by
  simp [releaseLog, List.replicate_succ']

theorem releaseLog_done {ms : List Message} {done : Nat} {m : Message} (h : ms[done]? = some m) :
    releaseLog ms done (packs m) ++ [.toPeer done (some done)] = releaseLog ms (done + 1) 0 := by
  have hl : done < ms.length := (List.getElem?_eq_some_iff.mp h).1
  simp [releaseLog, List.take_add_one, h, List.zipIdx_append, messageLog, Nat.min_eq_left (le_of_lt hl)]

/-- The frame and the log after the pack in slot `i`, of message `m`, has been released. -/
theorem core_releaseMsg {c : Channel} {i m : Nat} {f : Frame} (hp : (c.sendbuf.buf i).msg = some m)
    (hf : c.frames[m]? = some f) :
    (releaseMsg i c).toCore =
      if f.rpos + (c.sendbuf.buf i).head.len.toUInt64 = f.wpos then
        { c.toCore with
          frames := c.frames.set m { f with rpos := f.rpos + (c.sendbuf.buf i).head.len.toUInt64 }
          sendbuf := c.sendbuf.put i { c.sendbuf.buf i with msg := none }
          msgbuf := { c.msgbuf.put c.msgbuf.rslot none with rpos := c.msgbuf.rpos + 1 }
          log := c.log ++ [.release m, .toPeer m (c.msgbuf.buf c.msgbuf.rslot)] }
      else
        { c.toCore with
          frames := c.frames.set m { f with rpos := f.rpos + (c.sendbuf.buf i).head.len.toUInt64 }
          log := c.log ++ [.release m] } := by
  simp only [releaseMsg, hp, hf]
  split
  · rename_i h
    rw [if_pos (by exact h)]
    simp [Channel.emit, Channel.setPack]
  · rename_i h
    rw [if_neg (by exact h)]
    rfl

/-- The oldest pack belongs to the message that is released next. -/
theorem SendInv.next_release (h : SendInv k past ms x g)
    (hlt : g.released < g.sent) :
    ∃ m j, At ms g.released g.done m j ∧ (x.sendbuf.buf x.sendbuf.rslot).msg = some g.done ∧
      (x.sendbuf.buf x.sendbuf.rslot).head.len = UInt16.ofNat (bytes m (j + 1) - bytes m j) ∧
      x.frames[g.done]? = some (frameAt m (g.cut - start ms g.done) j) := by
  have hcut := h.ring.send_le
  obtain ⟨i, m, j, ha, hmsg, hfrag⟩ := h.ring.used g.released (Nat.le_refl _) (by omega)
  have hi := h.doneAt.eq_of_at ha
  subst hi
  rw [h.ring.rslot]
  refine ⟨m, j, ha, hmsg, hfrag.len, ?_⟩
  have hj : j = g.released - start ms g.done := by
    have := ha.eq
    omega
  rw [hj]
  exact h.frames _ _ ha.get

/-- The oldest pack leaves the send ring; the message ring and the log move with it. -/
theorem SendInv.take (h : SendInv k past ms x g)
    (hlt : g.released < g.sent) {m : Message} {j : Nat} (ha : At ms g.released g.done m j)
    {p : Pack} (hp : p.ts = 0) {q : Ring (Option Nat)} {d : Nat} {l : List Event}
    (hd : d = if j + 1 = packs m then g.done + 1 else g.done)
    (hq : q.Holds (fun i o => o = some i) (fun o => o = none) 3 d g.written ms.length)
    (hl : past ++ l.filter Event.isRelease = releaseLog ms d (g.released + 1 - start ms d)) :
    SendInv k past ms
      { x with
        frames := x.frames.set g.done (frameAt m (g.cut - start ms g.done) (j + 1))
        sendbuf := { x.sendbuf.put x.sendbuf.rslot p with rpos := x.sendbuf.rpos + 1 }
        msgbuf := q
        log := l }
      { g with released := g.released + 1, done := d } := by
  have hj : j + 1 = g.released + 1 - start ms g.done := by
    have := ha.eq
    omega
  have hnext := Cursor.next ha
  rw [← hd] at hnext
  refine { ring := h.ring.pop hlt hp, queue := hq, length := ?_, frames := ?_, cutAt := h.cutAt
           doneAt := hnext, log := hl }
  · simpa using h.length
  · rw [hj]
    refine frames_set ha h.frames (fun i => g.cut - start ms i) (fun i => g.released + 1 - start ms i) ?_
    intro i' m' hi hm'
    exact frameAt_congr (Or.inl rfl) ((ha.other hi hm').imp Eq.symm id)

/-- One turn of the release loop takes the oldest pack out of the window; the last pack of
a message hands that message back and clears its own slot. -/
theorem SendInv.release (h : SendInv k past ms c.toCore g)
    (hlt : g.released < g.sent) :
    ∃ d, SendInv k past ms (releaseOne c).toCore { g with released := g.released + 1, done := d } := by
  obtain ⟨m, j, ha, hmsg, hlen, hf⟩ := h.next_release hlt
  have hj : j < packs m := ha.lt
  have hcut := h.ring.send_le
  have hs := core_sampled c
  have hmsg' : ((sampled c).sendbuf.buf c.sendbuf.rslot).msg = some g.done := by
    rw [hs]
    simpa using hmsg
  have hlen' : ((sampled c).sendbuf.buf c.sendbuf.rslot).head.len = UInt16.ofNat (bytes m (j + 1) - bytes m j) := by
    rw [hs]
    simpa using hlen
  have hf' : (sampled c).frames[g.done]? = some (frameAt m (g.cut - start ms g.done) j) := by
    rw [hs]
    exact hf
  have hr := core_releaseMsg hmsg' hf'
  have hrpos : (frameAt m (g.cut - start ms g.done) j).rpos +
      (UInt16.ofNat (bytes m (j + 1) - bytes m j)).toUInt64 = UInt64.ofNat (bytes m (j + 1)) := bytes_add m j
  have hstart := ha.eq
  have hrest : g.released - start ms g.done = j := by omega
  have hlog : past ++ (c.log.filter Event.isRelease ++ [.release g.done]) =
      releaseLog ms g.done (j + 1) := by
    rw [← List.append_assoc, h.log, hrest, releaseLog_release]
  have hslot : c.msgbuf.buf c.msgbuf.rslot = some g.done := by
    rw [h.queue.rslot]
    exact h.queue.used _ (Nat.le_refl _) ha.lt_length
  have hlast := ofNat_bytes_eq_iff m j hj
  rw [hlen', hrpos, wpos_frameAt] at hr
  by_cases hl : j + 1 = packs m
  · rw [if_pos (hlast.mpr hl), hs] at hr
    refine ⟨g.done + 1, ?_⟩
    rw [core_releaseOne, hr]
    have hdone : g.done < g.written := by
      have hnext := Cursor.next ha
      rw [if_pos hl] at hnext
      exact hnext.mono h.cutAt (by omega)
    have hlog' : past ++ (c.log ++ [Event.release g.done, Event.toPeer g.done (some g.done)]).filter Event.isRelease =
        releaseLog ms (g.done + 1) (g.released + 1 - start ms (g.done + 1)) := by
      have hz : g.released + 1 - start ms (g.done + 1) = 0 := by
        rw [start_succ ha.get]
        omega
      rw [hz, ← releaseLog_done ha.get, ← hl, ← hlog]
      simp [Event.isRelease]
    have := h.take hlt ha (p := { c.sendbuf.buf c.sendbuf.rslot with ts := 0, msg := none }) rfl
      (if_pos hl).symm (h.queue.pop hdone rfl) hlog'
    simpa [hslot, frameAt] using this
  · rw [if_neg (hlast.not.mpr hl), hs] at hr
    refine ⟨g.done, ?_⟩
    rw [core_releaseOne, hr]
    have hlog' : past ++ (c.log ++ [Event.release g.done]).filter Event.isRelease =
        releaseLog ms g.done (g.released + 1 - start ms g.done) := by
      have hz : g.released + 1 - start ms g.done = j + 1 := by omega
      rw [hz, ← hlog]
      simp [Event.isRelease]
    have := h.take hlt ha (p := { c.sendbuf.buf c.sendbuf.rslot with ts := 0 }) rfl (if_neg hl).symm h.queue hlog'
    simpa [frameAt] using this

end

end Wenas.Xmsger
