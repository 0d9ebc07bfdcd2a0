import Wenas.Lib.Machine
import Wenas.Xtable.Table

/-!
# `search_table`

The keys are C strings, hashed to a bucket and compared byte by byte. The table is a finite map for as long as the
lengths of its keys fit the `int` of `bytes_compare` and the nodes of a bucket fit its 32-bit counter.
-/
namespace Wenas.Xtable

open Wenas.Machine Wenas.Links Wenas.Xlib

/-- The fields `key`, `uuid` and `uuid_len` of `search_node_t`; the bytes with what follows them in memory. -/
structure SearchKey where
  key : UInt64
  uuid : List UInt8
  uuidLen : UInt32
  deriving DecidableEq

/-- The value of a `char`, which is signed in some builds and not in others. -/
def char (signed : Bool) (b : UInt8) : Int := if signed then b.toInt8.toInt else b.toNat

/-- The loop of `bytes_compare` and the difference after it, for a counter that comes to zero at decrement `n`; what
lies past the end of a buffer is read as zeros. -/
def compareLoop (signed : Bool) : Nat → List UInt8 → List UInt8 → Int
  | n + 2, a :: s, b :: s' => if a = b then compareLoop signed (n + 1) s s' else char signed a - char signed b
  | _, s, s' => char signed (s.headD 0) - char signed (s'.headD 0)

def bytesCompare (signed : Bool) (na nb : SearchKey) : Int :=
  let len := if na.uuidLen < nb.uuidLen then na.uuidLen else nb.uuidLen
  let diff := compareLoop signed (if len = 0 then 2 ^ 32 else len.toNat) na.uuid nb.uuid
  if diff = 0 then (na.uuidLen - nb.uuidLen).toInt32.toInt else diff

/-- One turn of `hash_string`, on `hval` and `uuid_len`. -/
def hashByte (h : UInt64 × UInt32) (b : UInt8) : UInt64 × UInt32 :=
  let hval := (h.1 <<< 4) + b.toUInt64
  let g := hval &&& 0xf0000000
  (if g ≠ 0 then (hval ^^^ (g >>> 24)) ^^^ g else hval, h.2 + 1)

def hashString (uuid : List UInt8) : UInt32 × UInt32 :=
  let h := uuid.foldl hashByte (0, 0)
  (h.1.toUInt32, h.2)

/-- The node on the stack of `search_table_del` and `search_table_find`, for the bytes before the terminator. -/
def probe (uuid : List UInt8) : SearchKey :=
  let h := hashString uuid
  ⟨h.1.toUInt64, uuid ++ [0], h.2⟩

/-- The fields of a new node of `search_table_add`, with its copy of the string. -/
def copied (uuid : List UInt8) : SearchKey :=
  let h := hashString uuid
  ⟨h.1.toUInt64, (uuid ++ [0]).take (h.2 + 1).toNat, h.2⟩

def searchKeys (signed : Bool) : Keys SearchKey where
  hash k := k.key
  compare := bytesCompare signed
  differ a b := bytesCompare signed a b ≠ 0
  agree a b := a.uuidLen = b.uuidLen ∧ bytesCompare signed a b = 0

variable {V : Type}

/-- `search_table_t` with the values of the nodes and the nodes that were allocated and not freed. -/
structure SearchTable (V : Type) where
  table : Table SearchKey
  value : Ptr → V
  live : List Ptr

def searchTableInit (size : UInt32) (key : Ptr → SearchKey) (value : Ptr → V) : SearchTable V :=
  ⟨.init size key, value, []⟩

/-- `hnode_create` and the assignments after it. -/
def hnodeCreate (node : Ptr) (uuid : List UInt8) (t : Table SearchKey) : Table SearchKey :=
  { t with
    next := Function.update t.next node node
    prev := Function.update t.prev node node
    listLen := Function.update t.listLen node 0
    key := Function.update t.key node (copied uuid) }

/-- `search_table_add`; `node` is what `calloc` returns. -/
def searchTableAdd (signed : Bool) (node : Ptr) (uuid : List UInt8) (value : V) (s : SearchTable V) : SearchTable V :=
  let r := (hnodeCreate node uuid s.table).add (searchKeys signed) node
  ⟨r.1, Function.update s.value node value, if r.2 then node :: s.live else s.live⟩

/-- `search_table_del`. -/
def searchTableDel (signed : Bool) (uuid : List UInt8) (s : SearchTable V) : SearchTable V × Option V :=
  match s.table.del (searchKeys signed) (probe uuid) with
  | (t, some node) => (⟨t, s.value, s.live.erase node⟩, some (s.value node))
  | (t, none) => (⟨t, s.value, s.live⟩, none)

/-- `search_table_find`. -/
def searchTableFind (signed : Bool) (uuid : List UInt8) (s : SearchTable V) : Option V :=
  (s.table.find (searchKeys signed) (probe uuid)).map s.value

/-! ### The order of the keys -/

/-- Non-empty C strings whose lengths fit an `int`. -/
structure IsKey (uuid : List UInt8) : Prop where
  nonempty : uuid ≠ []
  string : 0 ∉ uuid
  short : uuid.length < 2 ^ 31

variable {signed : Bool} {u v uuid : List UInt8}

theorem char_inj {a b : UInt8} : char signed a = char signed b ↔ a = b := by
  cases signed with
  | false =>
    simp only [char, Bool.false_eq_true, if_false, Nat.cast_inj]
    exact UInt8.toNat_inj
  | true =>
    simp only [char, if_true]
    rw [Int8.toInt_inj]
    exact ⟨fun h => by simpa using congrArg Int8.toUInt8 h, congrArg _⟩

theorem uuidLen_foldl (h : UInt64 × UInt32) : (uuid.foldl hashByte h).2 = h.2 + UInt32.ofNat uuid.length := by
  induction uuid generalizing h with
  | nil => simp
  | cons b uuid ih =>
    rw [List.foldl_cons, ih, List.length_cons, hashByte]
    rw [UInt32.ofNat_add, add_assoc, add_comm (UInt32.ofNat uuid.length)]
    rfl

theorem uuidLen_hashString : (hashString uuid).2 = UInt32.ofNat uuid.length := by
  simp only [hashString, uuidLen_foldl, zero_add]

theorem uuidLen_probe : (probe uuid).uuidLen = UInt32.ofNat uuid.length := uuidLen_hashString

theorem IsKey.toNat_len (h : IsKey uuid) : (probe uuid).uuidLen.toNat = uuid.length := by
  have hshort := h.short
  rw [uuidLen_probe, UInt32.toNat_ofNat']
  omega

theorem IsKey.copied (h : IsKey uuid) : copied uuid = probe uuid := by
  have hshort := h.short
  simp only [Xtable.copied, probe, SearchKey.mk.injEq, true_and, and_true]
  rw [List.take_of_length_le]
  rw [UInt32.toNat_add, uuidLen_hashString, UInt32.toNat_ofNat', List.length_append]
  simp only [UInt32.toNat_one, List.length_singleton]
  omega

theorem probe_inj (h : probe u = probe v) : u = v := List.append_cancel_right (congrArg SearchKey.uuid h)

theorem map_lt_of_head {a b : UInt8} (h : char signed a - char signed b < 0) :
    (a :: u).map (char signed) < (b :: v).map (char signed) := by
  rw [List.map_cons, List.map_cons, List.cons_lt_cons_iff]
  exact .inl (by omega)

theorem map_cons_lt (a : UInt8) (h : u.map (char signed) < v.map (char signed)) :
    (a :: u).map (char signed) < (a :: v).map (char signed) := by
  rw [List.map_cons, List.map_cons, List.cons_lt_cons_iff]
  exact .inr ⟨rfl, h⟩

/-- The loop compares the bytes of the shorter string. -/
theorem compareLoop_sign (signed : Bool) (hu : u ≠ []) (hv : v ≠ []) (tail tail' : List UInt8) :
    let diff := compareLoop signed (min u.length v.length) (u ++ tail) (v ++ tail')
    (diff < 0 → u.map (char signed) < v.map (char signed)) ∧ (0 < diff → v.map (char signed) < u.map (char signed)) ∧
      (diff = 0 → u <+: v ∨ v <+: u) := by
  have hends : ∀ {a b : UInt8} {u v : List UInt8}, (a = b → u = [] ∨ v = []) →
      let diff := char signed a - char signed b
      (diff < 0 → (a :: u).map (char signed) < (b :: v).map (char signed)) ∧
        (0 < diff → (b :: v).map (char signed) < (a :: u).map (char signed)) ∧
          (diff = 0 → a :: u <+: b :: v ∨ b :: v <+: a :: u) := by
    intro a b u v hend
    refine ⟨map_lt_of_head, fun hpos => ?_, fun hzero => ?_⟩
    · have hneg : char signed b - char signed a < 0 := by omega
      exact map_lt_of_head hneg
    · obtain rfl : a = b := char_inj.mp (sub_eq_zero.mp hzero)
      obtain rfl | rfl := hend rfl
      · exact .inl (by simp)
      · exact .inr (by simp)
  induction u generalizing v with
  | nil => exact absurd rfl hu
  | cons a u ih =>
    cases v with
    | nil => exact absurd rfl hv
    | cons b v =>
      cases u with
      | nil => simpa [compareLoop] using hends (u := []) (v := v) (a := a) (b := b) fun _ => .inl rfl
      | cons a' u =>
        cases v with
        | nil => simpa [compareLoop] using hends (u := a' :: u) (v := []) (a := a) (b := b) fun _ => .inr rfl
        | cons b' v =>
          have hlen : min (a :: a' :: u).length (b :: b' :: v).length = min u.length v.length + 2 := by simp
          rw [hlen]
          by_cases hab : a = b
          · subst hab
            have hrest := ih (List.cons_ne_nil a' u) (List.cons_ne_nil b' v)
            have hlen' : min (a' :: u).length (b' :: v).length = min u.length v.length + 1 := by simp
            rw [hlen'] at hrest
            simp only [List.cons_append, compareLoop, if_true] at hrest ⊢
            obtain ⟨hneg, hpos, hzero⟩ := hrest
            refine ⟨fun h => map_cons_lt a (hneg h), fun h => map_cons_lt a (hpos h), fun h => ?_⟩
            simpa only [List.cons_prefix_cons, true_and] using hzero h
          · simp only [List.cons_append, compareLoop, hab, if_false]
            exact hends fun heq => absurd heq hab

theorem lengths_sub (hu : u.length < 2 ^ 31) (hv : v.length < 2 ^ 31) :
    (UInt32.ofNat u.length - UInt32.ofNat v.length).toInt32.toInt = (u.length : Int) - v.length := by
  rw [Int32.toInt, UInt32.toBitVec_toInt32, BitVec.toInt_eq_toNat_bmod, UInt32.toNat_toBitVec, UInt32.toNat_sub,
    UInt32.toNat_ofNat', UInt32.toNat_ofNat', Int.bmod]
  omega

theorem map_lt_of_prefix {f : UInt8 → Int} (h : u <+: v) (hlen : u.length < v.length) : u.map f < v.map f := by
  obtain ⟨rest, rfl⟩ := h
  cases rest with
  | nil => simp at hlen
  | cons b rest =>
    clear hlen
    induction u with
    | nil => exact List.nil_lt_cons ..
    | cons a u ih => exact List.cons_lt_cons_iff.mpr (.inr ⟨rfl, ih⟩)

theorem bytesCompare_sign (signed : Bool) (hu : IsKey u) (hv : IsKey v) :
    (bytesCompare signed (probe u) (probe v) < 0 → u.map (char signed) < v.map (char signed)) ∧
      (0 < bytesCompare signed (probe u) (probe v) → v.map (char signed) < u.map (char signed)) ∧
        (bytesCompare signed (probe u) (probe v) = 0 → u = v) := by
  have hlen : (if (probe u).uuidLen < (probe v).uuidLen then (probe u).uuidLen else (probe v).uuidLen).toNat =
      min u.length v.length := by
    split
    · rename_i hlt
      rw [UInt32.lt_iff_toNat_lt, hu.toNat_len, hv.toNat_len] at hlt
      rw [hu.toNat_len]
      omega
    · rename_i hge
      rw [UInt32.lt_iff_toNat_lt, hu.toNat_len, hv.toNat_len] at hge
      rw [hv.toNat_len]
      omega
  have hpos : 0 < min u.length v.length :=
    lt_min (List.length_pos_of_ne_nil hu.nonempty) (List.length_pos_of_ne_nil hv.nonempty)
  have hloop := compareLoop_sign signed hu.nonempty hv.nonempty [0] [0]
  have hdiff := lengths_sub hu.short hv.short
  rw [← uuidLen_probe, ← uuidLen_probe] at hdiff
  rw [← hlen] at hloop hpos
  generalize hshort : (if (probe u).uuidLen < (probe v).uuidLen then (probe u).uuidLen else (probe v).uuidLen) = len
    at hloop hpos
  have hne : len ≠ 0 := by
    rintro rfl
    exact absurd hpos (by decide)
  have huuid : (probe u).uuid = u ++ [0] := rfl
  have hvuid : (probe v).uuid = v ++ [0] := rfl
  simp only [bytesCompare, hshort, if_neg hne, huuid, hvuid, hdiff]
  obtain ⟨hneg, hpos, hzero⟩ := hloop
  split
  · rename_i hloop
    obtain hpre | hpre := hzero hloop
    · have hle := hpre.length_le
      refine ⟨fun h => map_lt_of_prefix hpre (by omega), fun h => by omega, fun h => ?_⟩
      exact hpre.eq_of_length (by omega)
    · have hle := hpre.length_le
      refine ⟨fun h => by omega, fun h => map_lt_of_prefix hpre (by omega), fun h => ?_⟩
      exact (hpre.eq_of_length (by omega)).symm
  · rename_i hloop
    exact ⟨hneg, hpos, fun h => absurd h hloop⟩

/-- The fields of a key that the functions get from a string. -/
def IsSearchKey (k : SearchKey) : Prop := ∃ uuid, IsKey uuid ∧ k = probe uuid

theorem bytesCompare_iff (hu : IsKey u) (hv : IsKey v) : (bytesCompare signed (probe u) (probe v) < 0 ↔
    u.map (char signed) < v.map (char signed)) ∧ (0 < bytesCompare signed (probe u) (probe v) ↔
      v.map (char signed) < u.map (char signed)) ∧ (bytesCompare signed (probe u) (probe v) = 0 ↔ u = v) := by
  obtain ⟨hneg, hpos, hzero⟩ := bytesCompare_sign signed hu hv
  refine ⟨⟨hneg, fun h => ?_⟩, ⟨hpos, fun h => ?_⟩, ⟨hzero, ?_⟩⟩
  · by_contra hge
    obtain heq | hgt := (not_lt.mp hge).eq_or_lt
    · exact lt_irrefl _ (hzero heq.symm ▸ h)
    · exact lt_asymm h (hpos hgt)
  · by_contra hge
    obtain heq | hlt := (not_lt.mp hge).eq_or_lt
    · exact lt_irrefl _ (hzero heq ▸ h)
    · exact lt_asymm h (hneg hlt)
  · rintro rfl
    by_contra hne
    obtain hlt | hgt := lt_or_gt_of_ne hne
    · exact lt_irrefl _ (hneg hlt)
    · exact lt_irrefl _ (hpos hgt)

theorem total (signed : Bool) : Avl.Total (searchKeys signed).compare IsSearchKey := by
  refine Avl.Total.of_order (fun k => k.uuid.dropLast.map (char signed)) ?_ ?_ ?_
  · rintro _ _ ⟨u, -, rfl⟩ ⟨v, -, rfl⟩ heq
    have hmap : u.map (char signed) = v.map (char signed) := by simpa [probe] using heq
    rw [List.map_injective_iff.mpr (fun a b => char_inj.mp) hmap]
  · rintro _ _ ⟨u, hu, rfl⟩ ⟨v, hv, rfl⟩
    simpa [probe, searchKeys] using (bytesCompare_iff hu hv).1
  · rintro _ _ ⟨u, hu, rfl⟩ ⟨v, hv, rfl⟩
    simpa [probe, searchKeys] using (bytesCompare_iff hu hv).2.1

theorem lawful (signed : Bool) : (searchKeys signed).Lawful IsSearchKey := by
  refine ⟨(total signed).refl, ?_, ?_⟩
  · rintro _ _ ⟨u, hu, rfl⟩ ⟨v, hv, rfl⟩
    simp only [searchKeys, decide_eq_true_eq, ne_eq, (bytesCompare_iff hu hv).2.2]
    exact not_congr ⟨congrArg probe, probe_inj⟩
  · rintro _ _ ⟨u, hu, rfl⟩ ⟨v, hv, rfl⟩
    simp only [searchKeys, decide_eq_true_eq, (bytesCompare_iff hu hv).2.2]
    constructor
    · rintro ⟨-, rfl⟩
      rfl
    · intro heq
      exact ⟨congrArg SearchKey.uuidLen heq, probe_inj heq⟩

/-! ### Runs -/

inductive SearchEvent (V : Type) where
  | add (node : Ptr) (uuid : List UInt8) (value : V)
  | del (uuid : List UInt8)
  | find (uuid : List UInt8)

def searchStep (signed : Bool) (s : SearchTable V) : SearchEvent V → SearchTable V
  | .add node uuid value => searchTableAdd signed node uuid value s
  | .del uuid => (searchTableDel signed uuid s).1
  | .find _ => s

def searchResult (signed : Bool) (s : SearchTable V) : SearchEvent V → Option V
  | .add .. => none
  | .del uuid => (searchTableDel signed uuid s).2
  | .find uuid => searchTableFind signed uuid s

/-- What a table is for: a finite map that keeps the first value of a key. -/
abbrev StringMap (V : Type) := Finmap fun _ : List UInt8 => V

def mapStep (m : StringMap V) : SearchEvent V → StringMap V
  | .add _ uuid value => if uuid ∈ m then m else m.insert uuid value
  | .del uuid => m.erase uuid
  | .find _ => m

def mapResult (m : StringMap V) : SearchEvent V → Option V
  | .add .. => none
  | .del uuid => m.lookup uuid
  | .find uuid => m.lookup uuid

/-- Keys are non-empty C strings, and `calloc` returns memory that is not in use. -/
def Called (s : SearchTable V) : SearchEvent V → Prop
  | .add node uuid _ => node ≠ head ∧ node ∉ s.live ∧ uuid ≠ [] ∧ 0 ∉ uuid
  | .del uuid => uuid ≠ [] ∧ 0 ∉ uuid
  | .find uuid => uuid ≠ [] ∧ 0 ∉ uuid

/-- Lengths fit an `int`, and the counter of a bucket that is added to is not at its end. -/
def Fits (s : SearchTable V) : SearchEvent V → Prop
  | .add _ uuid _ => uuid.length < 2 ^ 31 ∧
      ∀ first ∈ s.table.table ((probe uuid).key &&& s.table.mask.toUInt64).toNat,
        (s.table.listLen first).toNat + 1 < 2 ^ 32
  | .del uuid => uuid.length < 2 ^ 31
  | .find uuid => uuid.length < 2 ^ 31

instance (s : SearchTable V) : (e : SearchEvent V) → Decidable (Called s e)
  | .add .. => inferInstanceAs (Decidable (_ ∧ _ ∧ _ ∧ _))
  | .del _ => inferInstanceAs (Decidable (_ ∧ _))
  | .find _ => inferInstanceAs (Decidable (_ ∧ _))

instance (s : SearchTable V) : (e : SearchEvent V) → Decidable (Fits s e)
  | .add .. => inferInstanceAs (Decidable (_ ∧ _))
  | .del _ => inferInstanceAs (Decidable (_ < _))
  | .find _ => inferInstanceAs (Decidable (_ < _))

/-- The table has the shape of its buckets, its nodes are the allocated ones, and it holds the map. -/
structure Holds (signed : Bool) (s : SearchTable V) (m : StringMap V) : Prop where
  shape : ∃ bs, Shape (searchKeys signed) IsSearchKey s.table bs ∧ (nodes bs).Perm s.live
  lookup : ∀ uuid value, m.lookup uuid = some value ↔
    IsKey uuid ∧ ∃ x ∈ s.live, s.table.key x = probe uuid ∧ s.value x = value

namespace Holds

variable {s : SearchTable V} {m : StringMap V} {node : Ptr} {value : V}

theorem live_iff (h : Holds signed s m) (huuid : IsKey uuid) :
    uuid ∈ m ↔ ∃ x ∈ s.live, s.table.key x = probe uuid := by
  rw [Finmap.mem_iff]
  constructor
  · rintro ⟨value, hvalue⟩
    obtain ⟨-, x, hx, hkey, -⟩ := (h.lookup uuid value).mp hvalue
    exact ⟨x, hx, hkey⟩
  · rintro ⟨x, hx, hkey⟩
    exact ⟨s.value x, (h.lookup uuid _).mpr ⟨huuid, x, hx, hkey, rfl⟩⟩

theorem created (uuid : List UInt8) (hnode : node ≠ head) (hfree : node ∉ s.live) {bs : List Bucket}
    (h : Shape (searchKeys signed) IsSearchKey s.table bs) (hperm : (nodes bs).Perm s.live) :
    Shape (searchKeys signed) IsSearchKey (hnodeCreate node uuid s.table) bs := by
  have hne : ∀ x ∈ nodes bs, x ≠ node := by
    rintro x hx rfl
    exact hfree (hperm.mem_iff.mp hx)
  refine h.congr rfl rfl rfl rfl (fun x hx => ?_) (fun x hx => ?_) (fun x hx => ?_) (fun x hx => ?_)
  · exact Function.update_of_ne (hne x hx) ..
  · exact Function.update_of_ne (hne x hx) ..
  · obtain rfl | hx := List.mem_cons.mp hx
    · exact Function.update_of_ne hnode.symm ..
    · exact Function.update_of_ne (hne x hx) ..
  · obtain hx | hx := List.mem_append.mp hx
    · exact Function.update_of_ne (hne x hx) ..
    · rw [List.mem_singleton.mp hx]
      exact Function.update_of_ne hnode.symm ..

theorem add (h : Holds signed s m) (hcall : Called s (.add node uuid value)) (hfits : Fits s (.add node uuid value)) :
    Holds signed (searchTableAdd signed node uuid value s) (mapStep m (.add node uuid value)) := by
  obtain ⟨hnode, hfree, hnonempty, hstring⟩ := hcall
  obtain ⟨hshort, hroom⟩ := hfits
  have huuid : IsKey uuid := ⟨hnonempty, hstring, hshort⟩
  obtain ⟨bs, hshape, hperm⟩ := h.shape
  have hcreated := created uuid hnode hfree hshape hperm
  have hnodeKey : (hnodeCreate node uuid s.table).key node = probe uuid :=
    (Function.update_self ..).trans huuid.copied
  have hne : ∀ x ∈ s.live, x ≠ node := by
    rintro x hx rfl
    exact hfree hx
  have hkey : ∀ x ∈ s.live, (hnodeCreate node uuid s.table).key x = s.table.key x := fun x hx =>
    Function.update_of_ne (hne x hx) ..
  have hS : IsSearchKey ((hnodeCreate node uuid s.table).key node) := hnodeKey ▸ ⟨uuid, huuid, rfl⟩
  by_cases hin : uuid ∈ m
  · obtain ⟨x, hx, hxkey⟩ := (h.live_iff huuid).mp hin
    have hadd := hcreated.add_present (lawful signed) hS (fun _ _ _ => hcreated.ordered (total signed) hS) (hperm.mem_iff.mpr hx)
      ((hkey x hx).trans (hxkey.trans hnodeKey.symm))
    simp only [mapStep, if_pos hin, searchTableAdd, hadd, Bool.false_eq_true, if_false]
    refine ⟨⟨bs, hcreated, hperm⟩, fun u v => (h.lookup u v).trans (and_congr_right fun _ => ?_)⟩
    refine exists_congr fun y => and_congr_right fun hy => ?_
    dsimp only
    rw [hkey y hy, Function.update_of_ne (hne y hy)]
  · have hnew : ∀ x ∈ nodes bs, (hnodeCreate node uuid s.table).key x ≠ (hnodeCreate node uuid s.table).key node := by
      intro x hx heq
      have hxl := hperm.mem_iff.mp hx
      exact hin ((h.live_iff huuid).mpr ⟨x, hxl, (hkey x hxl).symm.trans (heq.trans hnodeKey)⟩)
    obtain ⟨hok, hkeys, cs, hgrown, hcs⟩ := hcreated.add_new (lawful signed) hnode hS
      (fun _ _ _ => hcreated.ordered (total signed) hS) hnew (by
      intro first hfirst
      rw [hnodeKey] at hfirst
      have hmem : first ∈ nodes bs := by
        obtain ⟨b, hb, rfl, -⟩ := hcreated.home _ _ hfirst
        exact mem_nodes.mpr ⟨b, hb, .inl rfl⟩
      have hlen : (hnodeCreate node uuid s.table).listLen first = s.table.listLen first :=
        Function.update_of_ne (hne first (hperm.mem_iff.mp hmem)) ..
      rw [hlen]
      exact hroom first hfirst)
    simp only [mapStep, if_neg hin, searchTableAdd, hok, if_true]
    refine ⟨⟨cs, hgrown, hcs.trans (hperm.cons node)⟩, fun u v => ?_⟩
    dsimp only
    rw [hkeys]
    by_cases hu : u = uuid
    · subst hu
      rw [Finmap.lookup_insert]
      constructor
      · rintro ⟨⟩
        exact ⟨huuid, node, List.mem_cons_self, hnodeKey, Function.update_self ..⟩
      · rintro ⟨-, x, hx, hxkey, rfl⟩
        obtain rfl | hx := List.mem_cons.mp hx
        · rw [Function.update_self]
        · exact absurd ((h.live_iff huuid).mpr ⟨x, hx, (hkey x hx).symm.trans hxkey⟩) hin
    · rw [Finmap.lookup_insert_of_ne _ hu, h.lookup]
      refine and_congr_right fun _ => ?_
      constructor
      · rintro ⟨x, hx, hxkey, rfl⟩
        exact ⟨x, List.mem_cons_of_mem _ hx, (hkey x hx).trans hxkey, Function.update_of_ne (hne x hx) ..⟩
      · rintro ⟨x, hx, hxkey, rfl⟩
        obtain rfl | hx := List.mem_cons.mp hx
        · exact absurd (probe_inj (hxkey.symm.trans hnodeKey)) hu
        · exact ⟨x, hx, (hkey x hx).symm.trans hxkey, (Function.update_of_ne (hne x hx) ..).symm⟩

theorem del (h : Holds signed s m) (huuid : IsKey uuid) :
    (searchTableDel signed uuid s).2 = m.lookup uuid ∧
      Holds signed (searchTableDel signed uuid s).1 (m.erase uuid) := by
  obtain ⟨bs, hshape, hperm⟩ := h.shape
  by_cases hin : uuid ∈ m
  · obtain ⟨x, hx, hxkey⟩ := (h.live_iff huuid).mp hin
    have hxn := hperm.mem_iff.mpr hx
    have hlookup := (h.lookup uuid (s.value x)).mpr ⟨huuid, x, hx, hxkey, rfl⟩
    obtain ⟨hdel, hkeys, cs, hshrunk, hcs⟩ := hshape.del_present (lawful signed) hxn
      (fun _ _ _ _ => hshape.ordered (total signed) (hshape.keys x hxn))
    rw [hxkey] at hdel hkeys hshrunk
    have hnodup : s.live.Nodup := hperm.nodup hshape.nodup
    generalize hr : s.table.del (searchKeys signed) (probe uuid) = r at hdel hkeys hshrunk
    obtain ⟨t, found⟩ := r
    obtain rfl : found = some x := hdel
    simp only [searchTableDel, hr, hlookup, true_and]
    refine ⟨⟨cs, hshrunk, hcs.trans (hperm.erase x)⟩, fun u v => ?_⟩
    dsimp only at hkeys ⊢
    rw [hkeys]
    by_cases hu : u = uuid
    · subst hu
      rw [Finmap.lookup_erase]
      simp only [reduceCtorEq, false_iff]
      rintro ⟨-, y, hy, hykey, -⟩
      obtain ⟨hne, hy⟩ := hnodup.mem_erase_iff.mp hy
      exact hne (hshape.key_inj (hperm.mem_iff.mpr hy) hxn (hykey.trans hxkey.symm))
    · rw [Finmap.lookup_erase_ne hu, h.lookup]
      refine and_congr_right fun _ => exists_congr fun y => ⟨fun hy => ?_, fun hy => ?_⟩
      · refine ⟨hnodup.mem_erase_iff.mpr ⟨?_, hy.1⟩, hy.2⟩
        rintro rfl
        exact hu (probe_inj (hy.2.1.symm.trans hxkey))
      · exact ⟨List.mem_of_mem_erase hy.1, hy.2⟩
  · have hnot : ∀ x ∈ nodes bs, s.table.key x ≠ probe uuid := fun x hx heq =>
      hin ((h.live_iff huuid).mpr ⟨x, hperm.mem_iff.mp hx, heq⟩)
    have hk : IsSearchKey (probe uuid) := ⟨uuid, huuid, rfl⟩
    have hdel := hshape.del_absent (lawful signed) hk (fun _ _ _ _ => hshape.ordered (total signed) hk) hnot
    have herase : m.erase uuid = m := Finmap.ext_lookup fun u => by
      by_cases hu : u = uuid
      · rw [hu, Finmap.lookup_erase, Finmap.lookup_eq_none.mpr hin]
      · exact Finmap.lookup_erase_ne hu
    simp only [searchTableDel, hdel, herase, Finmap.lookup_eq_none.mpr hin, true_and]
    exact h

theorem find (h : Holds signed s m) (huuid : IsKey uuid) : searchTableFind signed uuid s = m.lookup uuid := by
  obtain ⟨bs, hshape, hperm⟩ := h.shape
  have hk : IsSearchKey (probe uuid) := ⟨uuid, huuid, rfl⟩
  have hfind : ∀ x, s.table.find (searchKeys signed) (probe uuid) = some x ↔ x ∈ nodes bs ∧ s.table.key x = probe uuid :=
    fun x => hshape.find_some (lawful signed) hk fun _ _ _ => hshape.ordered (total signed) hk
  ext value
  rw [searchTableFind, Option.map_eq_some_iff, h.lookup]
  constructor
  · rintro ⟨x, hx, rfl⟩
    obtain ⟨hmem, hkey⟩ := (hfind x).mp hx
    exact ⟨huuid, x, hperm.mem_iff.mp hmem, hkey, rfl⟩
  · rintro ⟨-, x, hx, hkey, rfl⟩
    exact ⟨x, (hfind x).mpr ⟨hperm.mem_iff.mpr hx, hkey⟩, rfl⟩

/-- The counter of the table counts the keys. -/
theorem count (h : Holds signed s m) : s.table.count = m.keys.card := by
  obtain ⟨bs, hshape, hperm⟩ := h.shape
  have hkeys : m.keys = (s.live.map fun x => (s.table.key x).uuid.dropLast).toFinset := by
    ext uuid
    rw [Finmap.mem_keys, List.mem_toFinset, List.mem_map]
    constructor
    · intro hin
      obtain ⟨value, hvalue⟩ := Finmap.mem_iff.mp hin
      obtain ⟨-, x, hx, hkey, -⟩ := (h.lookup uuid value).mp hvalue
      exact ⟨x, hx, by rw [hkey]; exact List.dropLast_concat⟩
    · rintro ⟨x, hx, rfl⟩
      obtain ⟨uuid, huuid, hkey⟩ := hshape.keys x (hperm.mem_iff.mpr hx)
      rw [hkey, show (probe uuid).uuid.dropLast = uuid from List.dropLast_concat]
      exact (h.live_iff huuid).mpr ⟨x, hx, hkey⟩
  rw [hkeys, List.toFinset_card_of_nodup, List.length_map, hshape.count, hperm.length_eq]
  refine (List.nodup_map_iff_inj_on (hperm.nodup hshape.nodup)).mpr fun x hx y hy heq => ?_
  have hx' := hperm.mem_iff.mpr hx
  have hy' := hperm.mem_iff.mpr hy
  obtain ⟨u, hu, hukey⟩ := hshape.keys x hx'
  obtain ⟨v, hv, hvkey⟩ := hshape.keys y hy'
  refine hshape.key_inj hx' hy' ?_
  rw [hukey, hvkey] at heq ⊢
  exact congrArg probe (by simpa [probe] using heq)

end Holds

theorem holds_init (size : UInt32) (key : Ptr → SearchKey) (value : Ptr → V) :
    Holds signed (searchTableInit size key value) (∅ : StringMap V) where
  shape := ⟨[], shape_init size key, .refl _⟩
  lookup := by simp [searchTableInit]

theorem Holds.step {s : SearchTable V} {m : StringMap V} {e : SearchEvent V} (h : Holds signed s m) (hcall : Called s e)
    (hfits : Fits s e) :
    searchResult signed s e = mapResult m e ∧ Holds signed (searchStep signed s e) (mapStep m e) := by
  cases e with
  | add node uuid value => exact ⟨rfl, h.add hcall hfits⟩
  | del uuid => exact h.del ⟨hcall.1, hcall.2, hfits⟩
  | find uuid => exact ⟨h.find ⟨hcall.1, hcall.2, hfits⟩, h⟩

theorem mask_step (s : SearchTable V) (e : SearchEvent V) : (searchStep signed s e).table.mask = s.table.mask := by
  cases e with
  | add node uuid value => exact mask_add
  | del uuid =>
    have hmask := mask_del (K := searchKeys signed) (t := s.table) (k := probe uuid)
    simp only [searchStep, searchTableDel]
    generalize s.table.del (searchKeys signed) (probe uuid) = r at hmask
    obtain ⟨t, _ | x⟩ := r <;> exact hmask
  | find uuid => rfl

/-- The 64-bit `count` is no more than the calls. -/
theorem search_count_le (size : UInt32) (key : Ptr → SearchKey) (value : Ptr → V) (es : List (SearchEvent V)) :
    (run (searchStep signed) (searchTableInit size key value) es).table.count ≤ es.length := by
  have hstep : ∀ n (s : SearchTable V) e, s.table.count ≤ n → (searchStep signed s e).table.count ≤ n + 1 := by
    intro n s e hn
    cases e with
    | add node uuid value => exact count_add_le.trans (Nat.succ_le_succ hn)
    | del uuid =>
      have hdel := count_del_le (K := searchKeys signed) (t := s.table) (k := probe uuid)
      simp only [searchStep, searchTableDel]
      generalize s.table.del (searchKeys signed) (probe uuid) = r at hdel
      obtain ⟨t, _ | x⟩ := r <;> exact (hdel.trans hn).trans (Nat.le_succ n)
    | find uuid => exact Nat.le_succ_of_le hn
  have hcount := run_within (P := fun n (s : SearchTable V) => s.table.count ≤ n) hstep es
    (s := searchTableInit size key value) (n := 0) (Nat.le_refl 0)
  rwa [Nat.zero_add] at hcount

/-- A run with keys that fit gives the results of the map, and the table keeps its shape. -/
theorem search_table_map (signed : Bool) (j : Nat) (hj : j < 32) (key : Ptr → SearchKey) (value : Ptr → V)
    (es : List (SearchEvent V))
    (hrun : Along (searchStep signed) (fun s e => Called s e ∧ Fits s e)
      (searchTableInit (UInt32.ofNat (2 ^ j)) key value) es) :
    let s := run (searchStep signed) (searchTableInit (UInt32.ofNat (2 ^ j)) key value) es
    results (searchStep signed) (searchResult signed) (searchTableInit (UInt32.ofNat (2 ^ j)) key value) es =
        results mapStep mapResult (∅ : StringMap V) es ∧
      s.table.count = (run mapStep (∅ : StringMap V) es).keys.card ∧
      (∀ k, s.table.pos (searchKeys signed) k < 2 ^ j) ∧
      ∃ bs, Shape (searchKeys signed) IsSearchKey s.table bs ∧ (nodes bs).Perm s.live := by
  intro s
  have hstep : ∀ (s : SearchTable V) m e, Holds signed s m → Called s e ∧ Fits s e →
      searchResult signed s e = mapResult m e ∧ Holds signed (searchStep signed s e) (mapStep m e) :=
    fun s m e h hfit => h.step hfit.1 hfit.2
  obtain ⟨hresults, hholds⟩ := Along.simulation hstep hrun (holds_init _ key value)
  have hkeep : ∀ (s : SearchTable V) e, s.table.mask = UInt32.ofNat (2 ^ j) - 1 →
      (searchStep signed s e).table.mask = UInt32.ofNat (2 ^ j) - 1 := fun s e h => (mask_step s e).trans h
  have hmask : s.table.mask = UInt32.ofNat (2 ^ j) - 1 := invariant hkeep es rfl
  exact ⟨hresults, hholds.count, pos_lt hj hmask, hholds.shape⟩

/-- Colliding keys in a table of one bucket, one of them added twice, and the first node deleted. -/
theorem search_table_map_sample :
    let es := [SearchEvent.add 1 [97] 10, .add 2 [98] 20, .add 3 [97] 30, .find [97], .del [97], .find [97], .find [98]]
    results (searchStep true) (searchResult true) (searchTableInit (UInt32.ofNat (2 ^ 0)) (fun _ => probe []) fun _ => 0) es =
      results mapStep mapResult (∅ : StringMap Nat) es := by
  intro es
  exact (search_table_map true 0 (by decide) (fun _ => probe []) (fun _ => 0) es (by decide +kernel)).1

/-! ### Keys that do not fit -/

theorem copied_long {n : Nat} (hlen : n % 2 ^ 32 = 1) (hn : 2 ≤ n) :
    (copied (List.replicate n 97)).uuidLen = 1 ∧ (copied (List.replicate n 97)).uuid = [97, 97] := by
  have huuid : (hashString (List.replicate n 97)).2 = 1 := by
    rw [uuidLen_hashString, List.length_replicate]
    refine UInt32.toNat_inj.mp ?_
    rw [UInt32.toNat_ofNat', hlen]
    rfl
  refine ⟨huuid, ?_⟩
  simp only [copied, huuid]
  have htwo : ((1 : UInt32) + 1).toNat = 2 := rfl
  rw [htwo, List.take_append_of_le_length (by rwa [List.length_replicate]), List.take_replicate, min_eq_left hn]
  rfl

theorem pos_zero {κ : Type} {K : Keys κ} {t : Table κ} (hmask : t.mask = 0) (k : κ) : t.pos K k = 0 := by
  simp [Table.pos, hmask]

/-- The string of 2 ^ 32 + 1 bytes gets the length 1, and the string of one byte finds it. -/
theorem long_key_confused :
    ∃ es : List (SearchEvent Nat), Along (searchStep true) Called
      (searchTableInit 1 (fun _ => probe []) fun _ => 0) es ∧
      results (searchStep true) (searchResult true) (searchTableInit 1 (fun _ => probe []) fun _ => 0) es ≠
        results mapStep mapResult (∅ : StringMap Nat) es := by
  obtain ⟨n, hn⟩ : ∃ n : Nat, n = 2 ^ 32 + 1 := ⟨_, rfl⟩
  obtain ⟨hlen, huuid⟩ := copied_long (n := n) (by omega) (by omega)
  have hstring : 0 ∉ List.replicate n (97 : UInt8) := by simp
  have hnonempty : List.replicate n (97 : UInt8) ≠ [] := by simp; omega
  have hne : [97] ≠ List.replicate n (97 : UInt8) := by
    intro heq
    have hlength := congrArg List.length heq
    rw [List.length_replicate] at hlength
    simp at hlength
    omega
  have hsame : bytesCompare true (copied [97]) (copied (List.replicate n 97)) = 0 ∧
      bytesCompare true (probe [97]) (copied (List.replicate n 97)) = 0 := by
    simp only [bytesCompare, hlen, huuid]
    decide +kernel
  generalize List.replicate n (97 : UInt8) = long at *
  have hprobe : (probe [97]).uuidLen = 1 := by decide +kernel
  refine ⟨[.add 1 long 10, .add 2 [97] 20, .find [97]], ?_, ?_⟩
  · refine ⟨⟨by decide, by simp [searchTableInit], hnonempty, hstring⟩, ⟨by decide, ?_, by decide, by decide⟩, ?_, trivial⟩
    · simp [searchStep, searchTableAdd, searchTableInit, hnodeCreate, Table.add, Table.init]
    · simp [Called]
  · obtain ⟨s, hs⟩ : ∃ s : SearchTable Nat, s = searchStep true (searchTableInit 1 (fun _ => probe []) fun _ => 0)
        (.add 1 long 10) := ⟨_, rfl⟩
    have hfirst : s.table.mask = 0 ∧ s.table.table 0 = some 1 ∧ s.table.key 1 = copied long ∧ s.value 1 = 10 := by
      subst hs
      simp [searchStep, searchTableAdd, searchTableInit, hnodeCreate, Table.add, Table.init, Table.pos, Table.linkAfter]
    obtain ⟨hmask, htable, hkey, hvalue⟩ := hfirst
    have hsecond : searchStep true s (.add 2 [97] 20) =
        ⟨hnodeCreate 2 [97] s.table, Function.update s.value 2 20, s.live⟩ := by
      have hadd : (hnodeCreate 2 [97] s.table).add (searchKeys true) 2 = (hnodeCreate 2 [97] s.table, false) := by
        have htable' : (hnodeCreate 2 [97] s.table).table 0 = some 1 := htable
        simp only [Table.add, pos_zero (show (hnodeCreate 2 [97] s.table).mask = 0 from hmask), htable']
        simp [hnodeCreate, hkey, searchKeys, hsame.1]
      simp only [searchStep, searchTableAdd, hadd, Bool.false_eq_true, if_false]
    have hfound : searchTableFind true [97] (searchStep true s (.add 2 [97] 20)) = some 10 := by
      rw [hsecond, searchTableFind, Table.find, pos_zero (by exact hmask)]
      simp [hnodeCreate, htable, hkey, searchKeys, hsame.2, hprobe, hlen, hvalue]
    have hlong : mapStep (∅ : StringMap Nat) (.add 1 long 10) = Finmap.insert long 10 ∅ := by
      rw [mapStep, if_neg Finmap.notMem_empty]
    have hother : mapStep (Finmap.insert long 10 (∅ : StringMap Nat)) (.add 2 [97] 20) =
        Finmap.insert [97] 20 (Finmap.insert long 10 ∅) := by
      have hnot : [97] ∉ Finmap.insert long 10 (∅ : StringMap Nat) := by
        rw [Finmap.mem_insert]
        exact fun hin => hin.elim hne Finmap.notMem_empty
      rw [mapStep, if_neg hnot]
    intro heq
    have hthird := congrArg (fun l => l[2]?) heq
    simp only [results, ← hs, searchResult, hfound, mapResult, hlong, hother, Finmap.lookup_insert] at hthird
    exact absurd hthird (by decide)

end Wenas.Xtable
