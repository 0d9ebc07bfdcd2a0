import Wenas.Xmsger.OldAck

/-!
# The laws of a connection

What is handed up is a beginning of what the other side accepted, and what is reported
as acknowledged has been handed up.
-/
namespace Wenas.Xmsger

open Wenas.Serial Wenas.Machine

section

variable {k : Nat}

theorem SendSide.fresh {nd : Node} (hk : k ≤ 15) (hacc : nd.accepted = []) (htrace : nd.trace = []) (hcut : nd.cut = 0)
    (hsent : nd.sent = ∅)
    (hchan : ∀ c, nd.chan = some c → ∃ cid clock, c = xchannelCreate (sn (2 ^ k)) cid clock) :
    SendSide k nd nd ⟨0, 0, 0, 0, 0⟩ where
  inv := by
    intro c hc
    obtain ⟨cid, clock, rfl⟩ := hchan c hc
    rw [htrace, hacc]
    exact SendInv.create hk cid clock
  doneAt := Cursor.zero _
  log := by rw [htrace, hacc]; rfl
  room := Nat.zero_le _
  cut := hcut
  sent := by simp [hsent]
  got := by
    rw [htrace]
    intro n hn
    cases hn
  acked := Nat.zero_le _
  short := by simp [hacc, Short]
  data := by simp [hacc]

theorem RecvSide.fresh {nd : Node} (hk : k ≤ 15) (htrace : nd.trace = [])
    (hchan : ∀ c, nd.chan = some c → ∃ cid clock, c = xchannelCreate (sn (2 ^ k)) cid clock) :
    RecvSide k nd nd where
  ring := by
    intro c hc _
    obtain ⟨cid, clock, rfl⟩ := hchan c hc
    rw [htrace]
    exact RecvInv.create hk cid clock
  heap := by
    rw [htrace]
    refine ⟨none, Assembled.nil _, ?_⟩
    intro c hc
    obtain ⟨cid, clock, rfl⟩ := hchan c hc
    rfl

theorem LinkInv.idle (hk : k ≤ 12) : LinkInv k Link.idle fun _ => ⟨0, 0, 0, 0, 0⟩ where
  small := hk
  send := fun _ => SendSide.fresh (by omega) rfl rfl rfl rfl (by intro c hc; cases hc)
  recv := fun _ => RecvSide.fresh (by omega) rfl (by intro c hc; cases hc)
  unmade := fun _ _ => ⟨rfl, rfl, rfl, rfl, rfl⟩
  net := by simp [Link.idle]

theorem LinkInv.open (hk : k ≤ 12) (cid : UInt16) (clock : UInt64) :
    LinkInv k (Link.open k cid clock) fun _ => ⟨0, 0, 0, 0, 0⟩ where
  small := hk
  send := fun _ => SendSide.fresh (by omega) rfl rfl rfl rfl (by intro c hc; cases hc; exact ⟨cid, clock, rfl⟩)
  recv := fun _ => RecvSide.fresh (by omega) rfl (by intro c hc; cases hc; exact ⟨cid, clock, rfl⟩)
  unmade := by
    intro x hx
    cases hx
  net := by simp [Link.open]

variable {s : Link} {g : Side → Marks}

theorem LinkInv.handed_prefix (h : LinkInv k s g) (x : Side) :
    (handed (s.node x.other).trace).map RFrame.content <+: (s.node x).accepted.map Message.content := by
  obtain ⟨o, ho, -⟩ := (h.recv x.other).heap
  rw [Side.other_other] at ho
  have := ho.prefix
  rwa [handed_taken] at this

end

/-- A call on one side leaves both channels in place. -/
theorem Link.call_chan {s : Link} (h : ∀ z, (s.node z).chan ≠ none) (x : Side) (call : Call) (z : Side) :
    ((s.call x call).node z).chan ≠ none := by
  rw [Link.call]
  split
  · exact h z
  · split
    · rcases Side.eq_or_other x z with rfl | rfl
      · simp [Link.work, Link.post, Node.work]
      · simp only [Link.work, Link.post, Function.update_of_ne x.other_ne]
        exact h _
    · exact h z

theorem toPeer_of_releaseLog {ms : List Message} {done rest i : Nat} {o : Option Nat}
    (h : .toPeer i o ∈ releaseLog ms done rest) : i < done := by
  simp only [releaseLog, messageLog, List.mem_append, List.mem_flatMap, List.mem_replicate, List.mem_singleton] at h
  rcases h with ⟨⟨m, j⟩, hm, ⟨-, he⟩ | he⟩ | ⟨-, he⟩
  · cases he
  · cases he
    have := List.snd_lt_of_mem_zipIdx hm
    simp only [List.length_take] at this
    omega
  · cases he

theorem LinkInv.delivered {k : Nat} {s : Link} {g : Side → Marks} (h : LinkInv k s g) {x : Side} {i : Nat}
    {o : Option Nat} (hi : .toPeer i o ∈ (s.node x).trace) :
    ∃ m f, (s.node x).accepted[i]? = some m ∧ (handed (s.node x.other).trace)[i]? = some f ∧ f.content = m.content := by
  have hside := h.send x
  obtain ⟨r, hr, -⟩ := (h.recv x.other).heap
  rw [Side.other_other] at hr
  obtain ⟨j, hj, hhand, -⟩ := hr.cursor
  have hdone : i < (g x).done := by
    have hmem : .toPeer i o ∈ (s.node x).trace.filter Event.isRelease := List.mem_filter.mpr ⟨hi, rfl⟩
    rw [hside.log] at hmem
    exact toPeer_of_releaseLog hmem
  have hle : (g x).done ≤ j := hside.doneAt.mono hj hside.acked
  have hlen := hj.le
  have hget : (s.node x).accepted[i]? = some (s.node x).accepted[i] := List.getElem?_eq_getElem (by omega)
  have hmap := congrArg (·[i]?) hhand
  simp only [handed_taken, List.getElem?_map, List.getElem?_take_of_lt (show i < j by omega), hget, Option.map_some,
    Option.map_eq_some_iff] at hmap
  obtain ⟨f, hf, hcontent⟩ := hmap
  exact ⟨_, f, hget, hf, hcontent⟩

/-- A message of type `t` and one byte. -/
def Payload.byte (t : UInt16) (ht : t ≠ xpackTypeAck) (b : UInt8) : Payload where
  msg := ⟨t, [b], by simp⟩
  data := ht
  short := by simp [xmsgMaxLength, xbodySize, xmsgPackRange]

end Wenas.Xmsger
