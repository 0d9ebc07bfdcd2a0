import Mathlib
import Wenas.Lib.Machine
import Wenas.Xline.Parser
import Wenas.Xtree.Map

/-!
# The handlers of requests

The names that `xltp_make_api` adds to a tree, and the handler that `xltp_recv_req` finds for the word of a request. A
length is a `size_t` and the tree takes its low byte.
-/
namespace Wenas.Xltp.Api
open Wenas.Machine Wenas.Xline Wenas.Xtree

variable {Cb : Type}

/-- `xltp_make_api`, with whether it returns 0. -/
def xltpMakeApi (calloc : Nat → Bool) (api : CString) (cb : Cb) (root : Xtree.Tree Cb) : Xtree.Tree Cb × Bool :=
  xtreeAdd calloc api.chars (keylen api.chars) cb root

/-- `xltp_recv_req`, given what `xl_find_word` finds: the handler that it calls, and what it returns. -/
def xltpRecvReq (call : Cb → Int32) (api : Option CString) (root : Xtree.Tree Cb) : Option Cb × Int32 :=
  match api with
  | none => (none, -1)
  | some api =>
    match xtreeFind api.chars (keylen api.chars) root with
    | none => (none, -1)
    | some cb => (some cb, if call cb ≠ 0 then -1 else 0)

structure MakeApi (Cb : Type) where
  api : CString
  cb : Cb
  calloc : Nat → Bool

/-- The tree, and the names registered by now with their handlers. -/
abbrev Registry (Cb : Type) := Xtree.Tree Cb × List (CString × Cb)

def makeApi (s : Registry Cb) (a : MakeApi Cb) : Registry Cb :=
  let made := xltpMakeApi a.calloc a.api a.cb s.1
  (made.1, if made.2 then (a.api, a.cb) :: s.2 else s.2)

def makeApis (as : List (MakeApi Cb)) : Registry Cb := run makeApi (Xtree.Tree.create, []) as

/-! ### What the tree finds -/

theorem chars_inj {u v : CString} (h : u.chars = v.chars) : u = v := by
  cases u
  cases v
  congr

/-- While names are distinct, the tree has the registered ones. -/
structure Registered (s : Registry Cb) : Prop where
  not_null : s.1.isNull = false
  lookup : (s.2.map Prod.fst).Nodup → ∀ key cb, s.1.lookup (path key) = some cb ↔ ∃ api, (api, cb) ∈ s.2 ∧
    api.chars = key

theorem registered_create : Registered ((Xtree.Tree.create : Xtree.Tree Cb), []) where
  not_null := rfl
  lookup := by simp

theorem Registered.makeApi {s : Registry Cb} {a : MakeApi Cb} (h : Registered s)
    (hlen : a.api.chars.length < 256) : Registered (makeApi s a) := by
  have hadd : ∀ q, (s.1.addPath a.cb a.calloc (path a.api.chars)).1.lookup q =
      if (s.1.addPath a.cb a.calloc (path a.api.chars)).2 ∧ q = path a.api.chars then some a.cb else s.1.lookup q :=
    fun _ => Xtree.Tree.lookup_addPath h.not_null
  simp only [Api.makeApi, xltpMakeApi, xtreeAdd, take_keylen hlen]
  refine ⟨Xtree.Tree.addPath_not_null h.not_null, fun hnames key cb => ?_⟩
  rw [hadd]
  cases hmade : (s.1.addPath a.cb a.calloc (path a.api.chars)).2 with
  | false =>
    rw [hmade] at hnames
    simp only [Bool.false_eq_true, false_and, if_false]
    exact h.lookup hnames key cb
  | true =>
    rw [hmade] at hnames
    simp only [if_true, List.map_cons, List.nodup_cons, true_and, List.mem_cons, Prod.mk.injEq] at hnames ⊢
    by_cases hkey : path key = path a.api.chars
    · rw [if_pos hkey, Option.some.injEq]
      constructor
      · intro hcb
        exact ⟨a.api, .inl ⟨rfl, hcb.symm⟩, (path_inj hkey).symm⟩
      · rintro ⟨api, ⟨-, hcb⟩ | hin, hchars⟩
        · exact hcb.symm
        · have hsame : api = a.api := chars_inj (hchars.trans (path_inj hkey))
          rw [hsame] at hin
          exact absurd (List.mem_map.mpr ⟨_, hin, rfl⟩) hnames.1
    · rw [if_neg hkey, h.lookup hnames.2]
      constructor
      · rintro ⟨api, hin, hchars⟩
        exact ⟨api, .inr hin, hchars⟩
      · rintro ⟨api, ⟨rfl, -⟩ | hin, hchars⟩
        · exact absurd (congrArg path hchars.symm) hkey
        · exact ⟨api, hin, hchars⟩

theorem registered_makeApis {as : List (MakeApi Cb)} (hnames : ∀ a ∈ as, 0 < a.api.chars.length ∧ a.api.chars.length < 256) :
    Registered (makeApis as) := by
  have hstep : ∀ (s : Registry Cb) (a : MakeApi Cb), Registered s →
      0 < a.api.chars.length ∧ a.api.chars.length < 256 → Registered (makeApi s a) :=
    fun _ _ h hlen => h.makeApi hlen.2
  exact invariant_of_mem hstep hnames registered_create

/-- The handler for a word is that of the bytes that the low byte of its length leaves. -/
theorem recvReq_iff {as : List (MakeApi Cb)} (call : Cb → Int32) (h : Registered (makeApis as))
    (hdistinct : ((makeApis as).2.map Prod.fst).Nodup) (api : CString) (cb : Cb) :
    (xltpRecvReq call (some api) (makeApis as).1).1 = some cb ↔
      ∃ name, (name, cb) ∈ (makeApis as).2 ∧ name.chars = api.chars.take (api.chars.length % 256) := by
  have hfirst : (xltpRecvReq call (some api) (makeApis as).1).1 =
      xtreeFind api.chars (keylen api.chars) (makeApis as).1 := by
    simp only [xltpRecvReq]
    split <;> simp [*]
  rw [hfirst, xtreeFind, keylen, UInt8.toNat_ofNat']
  exact h.lookup hdistinct _ cb

/-- A word gets the handler of its name, and others get none, if and only if it is shorter than 256 bytes or those of
its bytes that the low byte of the length leaves are no name. -/
theorem api_dispatch (as : List (MakeApi Cb)) (call : Cb → Int32)
    (hnames : ∀ a ∈ as, 0 < a.api.chars.length ∧ a.api.chars.length < 256)
    (hdistinct : ((makeApis as).2.map Prod.fst).Nodup) (api : CString) :
    (∀ cb, (xltpRecvReq call (some api) (makeApis as).1).1 = some cb ↔ (api, cb) ∈ (makeApis as).2) ↔
      api.chars.length < 256 ∨ ∀ a ∈ (makeApis as).2, a.1.chars ≠ api.chars.take (api.chars.length % 256) := by
  have hreg := registered_makeApis hnames
  have hfind := recvReq_iff call hreg hdistinct api
  have hshort : ∀ a ∈ (makeApis as).2, a.1.chars.length < 256 := by
    have hstep : ∀ (s : Registry Cb) (a : MakeApi Cb), (∀ b ∈ s.2, b.1.chars.length < 256) →
        0 < a.api.chars.length ∧ a.api.chars.length < 256 → ∀ b ∈ (makeApi s a).2, b.1.chars.length < 256 := by
      intro s a h hlen b hb
      simp only [makeApi] at hb
      split at hb
      · obtain rfl | hb := List.mem_cons.mp hb
        · exact hlen.2
        · exact h b hb
      · exact h b hb
    exact invariant_of_mem hstep hnames fun _ hb => absurd hb List.not_mem_nil
  constructor
  · intro hexact
    by_cases hlen : api.chars.length < 256
    · exact .inl hlen
    · refine .inr fun a ha heq => ?_
      have hcalled := (hexact a.2).mp ((hfind a.2).mpr ⟨a.1, ha, heq⟩)
      exact hlen (hshort _ hcalled)
  · intro hcond cb
    rw [hfind]
    by_cases hlen : api.chars.length < 256
    · rw [Nat.mod_eq_of_lt hlen, List.take_length]
      constructor
      · rintro ⟨name, hin, hchars⟩
        rwa [← chars_inj hchars]
      · exact fun hin => ⟨api, hin, rfl⟩
    · constructor
      · rintro ⟨name, hin, hchars⟩
        exact absurd hchars (hcond.resolve_left hlen _ hin)
      · exact fun hin => absurd (hshort _ hin) hlen

/-- The word "put" among the names "get" and "put". -/
theorem api_dispatch_put :
    let as : List (MakeApi Nat) := [⟨⟨[103, 101, 116], by decide⟩, 1, fun _ => true⟩,
      ⟨⟨[112, 117, 116], by decide⟩, 2, fun _ => true⟩]
    let put : CString := ⟨[112, 117, 116], by decide⟩
    ∀ cb, (xltpRecvReq (fun _ => 0) (some put) (makeApis as).1).1 = some cb ↔ (put, cb) ∈ (makeApis as).2 := by
  intro as put
  have hnames : (makeApis as).2.map (fun a => a.1.chars) = [[112, 117, 116], [103, 101, 116]] := by decide +kernel
  have hdistinct : ((makeApis as).2.map Prod.fst).Nodup := by
    refine List.Nodup.of_map CString.chars ?_
    rw [List.map_map]
    exact hnames ▸ (by decide)
  exact (api_dispatch as (fun _ => 0) (by decide +kernel) hdistinct put).mpr (.inl (by decide))

/-- A word of 257 bytes gets the handler of its first byte. -/
theorem long_word_dispatched :
    ∃ (as : List (MakeApi Nat)) (api : CString), (∀ a ∈ as, 0 < a.api.chars.length ∧ a.api.chars.length < 256) ∧
      ((makeApis as).2.map Prod.fst).Nodup ∧
        ¬ ∀ cb, (xltpRecvReq (fun _ => 0) (some api) (makeApis as).1).1 = some cb ↔ (api, cb) ∈ (makeApis as).2 := by
  refine ⟨[⟨⟨[97], by decide⟩, 1, fun _ => true⟩], ⟨97 :: List.replicate 256 98, by decide +kernel⟩, by decide, ?_, ?_⟩
  · exact List.nodup_singleton _
  · intro hexact
    have hin := (hexact 1).mp (by decide +kernel)
    obtain heq | hin := List.mem_cons.mp hin
    · exact absurd (congrArg (fun a => a.1.chars.length) heq) (by decide +kernel)
    · exact absurd hin List.not_mem_nil

end Wenas.Xltp.Api
