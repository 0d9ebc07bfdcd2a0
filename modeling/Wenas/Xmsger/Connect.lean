import Wenas.Xlib.Avlmini
import Wenas.Xmsger.Hosts

/-!
# The channel id of a connection

`xmsger_local_recv` makes the key of a new channel from the address of the peer and the next channel id, until the key
is not in the tree `peers`.
-/
namespace Wenas.Xmsger

open Wenas.Xlib

/-- `ucid`, the first 24 bytes of an address with its first two replaced by a channel id. -/
structure Ucid where
  w0 : UInt64
  w1 : UInt64
  w2 : UInt64
deriving DecidableEq

/-- `*(uint16_t*)&ucid[0] = cid`: the first two bytes are the low ones of a word, or on a big-endian machine the high
ones. -/
def Ucid.put (big : Bool) (u : Ucid) (cid : UInt16) : Ucid :=
  { u with
    w0 := if big then cid.toUInt64 * 2 ^ 48 + u.w0 % 2 ^ 48 else u.w0 / 2 ^ 16 * 2 ^ 16 + cid.toUInt64 }

/-- `*(uint16_t*)&ucid[0]`. -/
def Ucid.cid (big : Bool) (u : Ucid) : UInt16 := if big then (u.w0 / 2 ^ 48).toUInt16 else u.w0.toUInt16

/-- `unicid_comp`. -/
def unicidComp (a b : Ucid) : Int :=
  if a.w0 ≠ b.w0 then if b.w0 < a.w0 then 1 else -1
  else if a.w1 ≠ b.w1 then if b.w1 < a.w1 then 1 else -1
  else if a.w2 ≠ b.w2 then if b.w2 < a.w2 then 1 else -1
  else 0

/-- The fields of the msger and its channels that the loop uses. A channel is known by its address in memory, and the
tree holds these. -/
structure Peers where
  cid : UInt16
  peers : Avl Nat
  ucid : Nat → Ucid
  chanCid : Nat → UInt16

/-- The channel takes an id. -/
def Peers.take (big : Bool) (s : Peers) (channel : Nat) (cid next : UInt16) : Peers :=
  { s with
    cid := next
    chanCid := Function.update s.chanCid channel cid
    ucid := Function.update s.ucid channel ((s.ucid channel).put big cid) }

/-- `avl_tree_add(&msger->peers, channel)`. -/
def Peers.add (s : Peers) (channel : Nat) : Peers × Option Nat :=
  let r := s.peers.add (fun x => unicidComp (s.ucid channel) (s.ucid x)) channel
  ({ s with peers := r.1 }, r.2)

/-- The loop, in at most as many attempts. -/
def cidLoop (big : Bool) (channel : Nat) : Nat → Peers → Option Peers
  | 0, _ => none
  | n + 1, s =>
    match (s.take big channel s.cid (s.cid + 1)).add channel with
    | (t, none) => some t
    | (t, some _) => cidLoop big channel n t

/-- The part of `xmsger_local_recv` that gives a new channel its key. -/
def localRecv (big : Bool) (attempts : Nat) (channel : Nat) (addr : Ucid) (s : Peers) : Option Peers :=
  cidLoop big channel attempts { s with ucid := Function.update s.ucid channel addr }

/-- The address in a key: all but the two bytes that the id replaces. -/
def SameAddress (big : Bool) (u v : Ucid) : Prop := u.put big 0 = v.put big 0

instance (big : Bool) (u v : Ucid) : Decidable (SameAddress big u v) := inferInstanceAs (Decidable (_ = _))

section

variable {big : Bool} {u v : Ucid} {a b cid next : UInt16} {s t : Peers} {channel x : Nat}

theorem total_unicid : Avl.Total unicidComp fun _ => True := by
  have hlt : ∀ u v : Ucid, toLex (u.w0.toNat, toLex (u.w1.toNat, u.w2.toNat)) <
      toLex (v.w0.toNat, toLex (v.w1.toNat, v.w2.toNat)) ↔ unicidComp u v < 0 := by
    intro u v
    simp only [Prod.Lex.toLex_lt_toLex, unicidComp, UInt64.lt_iff_toNat_lt, ← UInt64.toNat_inj, ne_eq]
    split_ifs <;> omega
  have hgt : ∀ u v : Ucid, 0 < unicidComp u v ↔ unicidComp v u < 0 := by
    intro u v
    simp only [unicidComp, UInt64.lt_iff_toNat_lt, ← UInt64.toNat_inj, ne_eq]
    split_ifs <;> omega
  refine Avl.Total.of_order (fun u => toLex (u.w0.toNat, toLex (u.w1.toNat, u.w2.toNat))) (fun u v _ _ heq => ?_)
    (fun u v _ _ => (hlt u v).symm) fun u v _ _ => (hgt u v).trans (hlt v u).symm
  obtain ⟨u0, u1, u2⟩ := u
  obtain ⟨v0, v1, v2⟩ := v
  simpa [UInt64.toNat_inj] using heq

theorem toNat_put (u : Ucid) (a : UInt16) : (u.put big a).w0.toNat =
    if big then a.toNat * 2 ^ 48 + u.w0.toNat % 2 ^ 48 else u.w0.toNat / 2 ^ 16 * 2 ^ 16 + a.toNat := by
  have ha := a.toNat_lt
  have hu := u.w0.toNat_lt
  have hword : ((2 : UInt64) ^ 48).toNat = 2 ^ 48 := by decide
  have hhalf : ((2 : UInt64) ^ 16).toNat = 2 ^ 16 := by decide
  cases big with
  | true =>
    simp only [Ucid.put, if_true, UInt64.toNat_add, UInt64.toNat_mul, UInt64.toNat_mod, UInt16.toNat_toUInt64, hword]
    omega
  | false =>
    simp only [Ucid.put, Bool.false_eq_true, if_false, UInt64.toNat_add, UInt64.toNat_mul, UInt64.toNat_div,
      UInt16.toNat_toUInt64, hhalf]
    omega

theorem put_put : (u.put big a).put big b = u.put big b := by
  have ha := a.toNat_lt
  have hsame : ((u.put big a).put big b).w0 = (u.put big b).w0 := by
    rw [← UInt64.toNat_inj]
    simp only [toNat_put]
    cases big with
    | true =>
      simp only [if_true]
      omega
    | false =>
      simp only [Bool.false_eq_true, if_false]
      omega
  obtain ⟨w0, w1, w2⟩ := u
  simpa [Ucid.put] using hsame

theorem cid_put (big : Bool) (u : Ucid) (a : UInt16) : (u.put big a).cid big = a := by
  have ha := a.toNat_lt
  have hword : ((2 : UInt64) ^ 48).toNat = 2 ^ 48 := by decide
  rw [← UInt16.toNat_inj]
  cases big with
  | true =>
    simp only [Ucid.cid, if_true, UInt64.toNat_toUInt16, UInt64.toNat_div, toNat_put, hword]
    omega
  | false =>
    simp only [Ucid.cid, Bool.false_eq_true, if_false, UInt64.toNat_toUInt16, toNat_put]
    omega

theorem SameAddress.put_eq (h : SameAddress big u v) (a : UInt16) : u.put big a = v.put big a := by
  rw [← put_put (a := 0), h, put_put]

/-- A key with an id is that of the address with the id. -/
theorem put_cid (big : Bool) (u : Ucid) : u.put big (u.cid big) = u := by
  have hword : ((2 : UInt64) ^ 48).toNat = 2 ^ 48 := by decide
  have hu := u.w0.toNat_lt
  have hsame : (u.put big (u.cid big)).w0 = u.w0 := by
    rw [← UInt64.toNat_inj, toNat_put]
    cases big with
    | true =>
      simp only [Ucid.cid, if_true, UInt64.toNat_toUInt16, UInt64.toNat_div, hword]
      omega
    | false =>
      simp only [Ucid.cid, Bool.false_eq_true, if_false, UInt64.toNat_toUInt16]
      omega
  obtain ⟨w0, w1, w2⟩ := u
  simpa [Ucid.put] using hsame

/-! ### The attempts -/

/-- The keys of the tree are in order. -/
def Peers.Ordered (s : Peers) : Prop := Avl.Sorted unicidComp s.ucid s.peers

/-- Some channel has the key of the address with the id. -/
def Peers.used (big : Bool) (s : Peers) (addr : Ucid) (cid : UInt16) : Bool :=
  s.peers.toList.any fun x => s.ucid x = addr.put big cid

theorem Peers.used_iff {addr : Ucid} : s.used big addr cid = true ↔
    ∃ x ∈ s.peers.toList, s.ucid x = addr.put big cid := by
  simp [Peers.used]

theorem take_ucid (hx : x ≠ channel) : (s.take big channel cid next).ucid x = s.ucid x := Function.update_of_ne hx ..

theorem take_self : (s.take big channel cid next).ucid channel = (s.ucid channel).put big cid := Function.update_self ..

theorem take_take : (s.take big channel a b).take big channel cid next = s.take big channel cid next := by
  simp only [Peers.take, Function.update_idem, Function.update_self, put_put]

/-- The channel is not in the tree, so that its key may change. -/
theorem take_ordered (h : s.Ordered) (hnew : channel ∉ s.peers.toList) : (s.take big channel cid next).Ordered :=
  Avl.Sorted.congr h fun _ hx => take_ucid fun heq => hnew (heq ▸ hx)

theorem take_find (h : s.Ordered) (hnew : channel ∉ s.peers.toList) (big : Bool) (cid next : UInt16) :
    (s.take big channel cid next).peers.find (fun x => unicidComp ((s.take big channel cid next).ucid channel)
      ((s.take big channel cid next).ucid x)) = none ↔ s.used big (s.ucid channel) cid = false := by
  rw [(take_ordered h hnew).find_none total_unicid (fun _ _ => trivial) trivial, Bool.eq_false_iff, Ne, Peers.used_iff]
  push Not
  refine forall₂_congr fun x hx => ?_
  have hne : x ≠ channel := by
    rintro rfl
    exact hnew hx
  rw [take_ucid hne, take_self]

/-- The id that a channel has had does not matter. -/
theorem take_used (hnew : channel ∉ s.peers.toList) :
    (s.take big channel a b).used big ((s.take big channel a b).ucid channel) = s.used big (s.ucid channel) := by
  funext cid
  rw [Bool.eq_iff_iff, Peers.used_iff, Peers.used_iff]
  refine exists_congr fun x => and_congr_right fun hx => ?_
  have hne : x ≠ channel := by
    rintro rfl
    exact hnew hx
  rw [take_ucid hne, take_self, put_put]

/-- The loop takes the first id that is not used. -/
theorem cidLoop_eq (h : s.Ordered) (hnew : channel ∉ s.peers.toList) (n : Nat) :
    cidLoop big channel n s = (pickCid (s.used big (s.ucid channel)) n s.cid).map fun r =>
      ((s.take big channel r.1 r.2).add channel).1 := by
  induction n generalizing s with
  | zero => rfl
  | succ n ih =>
    have hfind := take_find h hnew big s.cid (s.cid + 1)
    cases hused : s.used big (s.ucid channel) s.cid with
    | true =>
      obtain ⟨x, hx⟩ : ∃ x, (s.take big channel s.cid (s.cid + 1)).peers.find (fun x => unicidComp
          ((s.take big channel s.cid (s.cid + 1)).ucid channel)
            ((s.take big channel s.cid (s.cid + 1)).ucid x)) = some x := by
        refine Option.ne_none_iff_exists'.mp fun hnone => ?_
        rw [hfind.mp hnone] at hused
        cases hused
      have hadd : (s.take big channel s.cid (s.cid + 1)).add channel =
          (s.take big channel s.cid (s.cid + 1), some x) := by
        rw [Peers.add, Avl.add_of_conflict hx]
      rw [cidLoop, hadd, pickCid, hused, if_pos rfl]
      simp only
      rw [ih (take_ordered h hnew) hnew, take_used hnew]
      simp only [take_take]
      rfl
    | false =>
      have hnone := hfind.mpr hused
      have hadd : ((s.take big channel s.cid (s.cid + 1)).add channel).2 = none := by
        rw [Peers.add, Avl.add_conflict, hnone]
      rw [pickCid, hused, if_neg Bool.false_ne_true, Option.map_some, cidLoop]
      cases hresult : (s.take big channel s.cid (s.cid + 1)).add channel with
      | mk t conflict =>
        rw [hresult] at hadd
        obtain rfl : conflict = none := hadd
        rfl

/-! ### A free id -/

/-- An id that is not used is found before the counter comes round. -/
theorem pickCid_found {used : UInt16 → Bool} {n d : Nat} (hd : d < n) (hfree : used (cid + UInt16.ofNat d) = false) :
    ∃ r, pickCid used n cid = some r := by
  induction n generalizing cid d with
  | zero => exact absurd hd (Nat.not_lt_zero d)
  | succ n ih =>
    rw [pickCid]
    cases hused : used cid with
    | false => exact ⟨(cid, cid + 1), by simp⟩
    | true =>
      cases d with
      | zero =>
        rw [show cid + UInt16.ofNat 0 = cid by simp, hused] at hfree
        cases hfree
      | succ d =>
        rw [if_pos rfl]
        refine ih (Nat.lt_of_succ_lt_succ hd) ?_
        have hstep : cid + UInt16.ofNat (d + 1) = cid + 1 + UInt16.ofNat d := by
          rw [UInt16.ofNat_add, add_comm (UInt16.ofNat d), ← add_assoc]
          rfl
        rwa [← hstep]

/-- Fewer channels than ids leave an id free. -/
theorem exists_free {addr : Ucid}
    (hfew : (s.peers.toList.filter fun x => SameAddress big (s.ucid x) addr).length < 65536) :
    ∃ a, s.used big addr a = false := by
  have hcard : ((s.peers.toList.filter fun x => SameAddress big (s.ucid x) addr).map
      fun x => ((s.ucid x).cid big).toNat).toFinset.card < (Finset.range 65536).card := by
    rw [Finset.card_range]
    refine Nat.lt_of_le_of_lt (List.toFinset_card_le _) ?_
    rwa [List.length_map]
  obtain ⟨k, hk, hnot⟩ := Finset.exists_mem_notMem_of_card_lt_card hcard
  refine ⟨UInt16.ofNat k, ?_⟩
  rw [Bool.eq_false_iff, Ne, Peers.used_iff]
  rintro ⟨x, hx, hkey⟩
  refine hnot (List.mem_toFinset.mpr (List.mem_map.mpr ⟨x, List.mem_filter.mpr ⟨hx, decide_eq_true ?_⟩, ?_⟩))
  · rw [SameAddress, hkey, put_put]
  · rw [hkey, cid_put, UInt16.toNat_ofNat']
    exact Nat.mod_eq_of_lt (Finset.mem_range.mp hk)

end

/-- With fewer than 65536 channels of an address, a new channel to it gets its id in at most 65536 attempts. No other of
them has the id, the channel is in the tree, and the others keep their keys. -/
theorem connect_free (big : Bool) (s : Peers) (channel : Nat) (addr : Ucid) (hordered : s.Ordered)
    (hnew : channel ∉ s.peers.toList) (hkeyed : ∀ x ∈ s.peers.toList, (s.ucid x).cid big = s.chanCid x)
    (hfew : (s.peers.toList.filter fun x => SameAddress big (s.ucid x) addr).length < 65536) :
    ∃ t, localRecv big 65536 channel addr s = some t ∧ t.ucid channel = addr.put big (t.chanCid channel) ∧
      (∀ x ∈ s.peers.toList, SameAddress big (s.ucid x) addr → s.chanCid x ≠ t.chanCid channel) ∧
      (∀ x, x ∈ t.peers.toList ↔ x = channel ∨ x ∈ s.peers.toList) ∧ t.Ordered ∧
      ∀ x, x ≠ channel → t.ucid x = s.ucid x ∧ t.chanCid x = s.chanCid x := by
  obtain ⟨s', hs'⟩ : ∃ s' : Peers, s' = { s with ucid := Function.update s.ucid channel addr } := ⟨_, rfl⟩
  have hself : s'.ucid channel = addr := by
    rw [hs']
    exact Function.update_self ..
  have hold : ∀ x, x ≠ channel → s'.ucid x = s.ucid x := by
    intro x hx
    rw [hs']
    exact Function.update_of_ne hx ..
  have hpeers : s'.peers = s.peers := by rw [hs']
  have hmem : ∀ x ∈ s.peers.toList, x ≠ channel := fun x hx heq => hnew (heq ▸ hx)
  have hordered' : s'.Ordered := by
    rw [Peers.Ordered, hpeers]
    exact Avl.Sorted.congr hordered fun x hx => hold x (hmem x hx)
  have hnew' : channel ∉ s'.peers.toList := by rwa [hpeers]
  have hused : s'.used big addr = s.used big addr := by
    funext a
    rw [Bool.eq_iff_iff, Peers.used_iff, Peers.used_iff, hpeers]
    exact exists_congr fun x => and_congr_right fun hx => by rw [hold x (hmem x hx)]
  -- the counter comes to the free id in as many steps as it is ahead
  obtain ⟨a, hfree⟩ := exists_free hfew
  have hahead : s'.cid + UInt16.ofNat (a - s'.cid).toNat = a := by
    rw [UInt16.ofNat_toNat]
    exact add_sub_cancel s'.cid a
  have hfree' : s'.used big addr (s'.cid + UInt16.ofNat (a - s'.cid).toNat) = false := by rwa [hahead, hused]
  obtain ⟨⟨cid, next⟩, hpick⟩ := pickCid_found (a - s'.cid).toNat_lt hfree'
  have hunused := pickCid_unused hpick
  obtain ⟨t, ht⟩ : ∃ t, t = ((s'.take big channel cid next).add channel).1 := ⟨_, rfl⟩
  have hrun : localRecv big 65536 channel addr s = some t := by
    rw [localRecv, ← hs', cidLoop_eq hordered' hnew', hself, hpick, ht]
    rfl
  have hkey : t.ucid channel = addr.put big cid := by
    calc
      t.ucid channel = (s'.take big channel cid next).ucid channel := by rw [ht]; rfl
      _ = (s'.ucid channel).put big cid := take_self
      _ = addr.put big cid := by rw [hself]
  have hcid : t.chanCid channel = cid := by
    rw [ht]
    exact Function.update_self ..
  obtain ⟨hsorted, hin⟩ := (take_ordered hordered' hnew').add total_unicid (fun _ _ => trivial) trivial
    ((take_find hordered' hnew' big cid next).mpr (by rwa [hself]))
  refine ⟨t, hrun, by rw [hkey, hcid], fun x hx hsame heq => ?_, fun x => ?_, ?_, fun x hx => ⟨?_, ?_⟩⟩
  · -- the other channel's key would be the one that is not used
    rw [hused, Bool.eq_false_iff, Ne, Peers.used_iff] at hunused
    refine hunused ⟨x, hx, ?_⟩
    rw [← put_cid big (s.ucid x), hkeyed x hx, heq, hcid]
    exact hsame.put_eq cid
  · rw [ht, ← hpeers]
    exact hin x
  · rw [ht]
    exact hsorted
  · calc
      t.ucid x = (s'.take big channel cid next).ucid x := by rw [ht]; rfl
      _ = s'.ucid x := take_ucid hx
      _ = s.ucid x := hold x hx
  · rw [ht, hs']
    exact Function.update_of_ne hx ..

/-- The channel 0 has the id 7 and the counter stands at 7. -/
theorem connect_free_next :
    let s : Peers := ⟨7, .node 1 .nil 0 .nil, fun _ => ⟨7, 5, 6⟩, fun _ => 7⟩
    (0 : Nat) ∈ s.peers.toList ∧ ∃ t, localRecv false 65536 1 ⟨2, 5, 6⟩ s = some t ∧
      t.ucid 1 = Ucid.put false ⟨2, 5, 6⟩ (t.chanCid 1) ∧ t.chanCid 1 ≠ 7 ∧ (1 : Nat) ∈ t.peers.toList := by
  refine ⟨by decide, ?_⟩
  obtain ⟨t, hrun, hkey, hother, hin, -, -⟩ := connect_free false
    ⟨7, .node 1 .nil 0 .nil, fun _ => ⟨7, 5, 6⟩, fun _ => 7⟩ 1 ⟨2, 5,
      6⟩ (by simp [Peers.Ordered, Avl.Sorted, Avl.toList])
    (by decide) (by decide) (by decide)
  exact ⟨t, hrun, hkey, (hother 0 (by decide) (by decide)).symm, (hin 1).mpr (.inl rfl)⟩

end Wenas.Xmsger
