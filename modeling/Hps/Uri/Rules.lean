import Hps.Lib.Words
import Hps.Uri.Model

/-!
# Uri — what the machine does with a rule

The bytes of which the words of a rule are made, and the runs of the machine
over words of the rules that stand alone: a path, a query, a fragment.
-/

namespace Hps.UriParser

open RegularExpression Hps.Lib
open Hps.Http (ch text alpha digit xdigit)
open Hps.Http.Request.IP (Re oneOf lit opt dead dead_iff)

/-! ## Bytes -/

section Bytes

variable {P : UInt8 → Prop} {r : Re}

/-- The words of a class are its bytes. -/
theorem mem_oneOf {p : UInt8 → Bool} {w : List UInt8} :
    w ∈ (oneOf p).matches' ↔ ∃ c, w = [c] ∧ p c = true := by
  have hfold : ∀ cs : List UInt8, w ∈ (cs.foldr (fun c r => char c + r) (0 : Re)).matches' ↔
      ∃ c ∈ cs, w = [c] := by
    intro cs
    induction cs with
    | nil => exact iff_of_false (Set.notMem_empty _) (by simp)
    | cons c cs ih =>
        rw [List.foldr_cons, matches'_add, Language.mem_add, ih, List.exists_mem_cons_iff]
        exact or_congr_left Set.mem_singleton_iff
  rw [oneOf, hfold]
  constructor
  · rintro ⟨c, hc, rfl⟩
    exact ⟨c, rfl, (List.mem_filter.mp hc).2⟩
  · rintro ⟨c, rfl, hc⟩
    refine ⟨c, List.mem_filter.mpr ⟨?_, hc⟩, rfl⟩
    exact List.mem_map.mpr ⟨c.toNat, List.mem_range.mpr c.toNat_lt, UInt8.ofNat_toNat⟩

theorem mem_star_oneOf {p : UInt8 → Bool} {w : List UInt8} (h : w.all p = true) :
    w ∈ (star (oneOf p)).matches' :=
  mem_star_of_forall fun c hc => mem_oneOf.mpr ⟨c, rfl, List.all_eq_true.mp h c hc⟩

theorem over_oneOf {p : UInt8 → Bool} (h : ∀ c, p c = true → P c) : Over P (oneOf p) := by
  intro w hw a ha
  obtain ⟨c, rfl, hc⟩ := mem_oneOf.mp hw
  rw [List.mem_singleton.mp ha]
  exact h c hc

/-- A class without the bytes of `cs`. -/
theorem over_without {p : UInt8 → Bool} {cs : List UInt8} (h : cs.all (!p ·) = true) :
    Over (· ∉ cs) (oneOf p) := by
  refine over_oneOf fun c hc hmem => ?_
  have hnot := List.all_eq_true.mp h c hmem
  rw [hc] at hnot
  cases hnot

theorem over_opt (h : Over P r) : Over P (opt r) := over_one.add h

end Bytes

/-- What may stand in a `userinfo` or a `reg_name`. -/
def nameUnit : Re := unreserved + pctEncoded + subDelims

theorem over_nameUnit : Over (· ∉ text ":/?#@[") nameUnit := by
  apply Over.add
  · apply Over.add
    · exact over_without (by decide)
    · apply Over.mul
      · exact (over_char (by decide)).mul (over_without (by decide))
      · exact over_without (by decide)
  · exact over_without (by decide)

theorem over_regName : Over (· ∉ text ":/?#@[") regName := over_nameUnit.star

theorem over_decOctet : Over (· ∉ text ":/?#@[") decOctet := by
  have hdigit : Over (· ∉ text ":/?#@[") (oneOf digit) := over_without (by decide)
  refine (((hdigit.add ?_).add ?_).add ?_).add ?_
  · exact (over_without (by decide)).mul hdigit
  · exact ((over_char (by decide)).mul hdigit).mul hdigit
  · exact ((over_char (by decide)).mul (over_without (by decide))).mul hdigit
  · exact ((over_char (by decide)).mul (over_char (by decide))).mul
      (over_without (by decide))

theorem over_ipv4address : Over (· ∉ text ":/?#@[") ipv4address := by
  have hdot : Over (· ∉ text ":/?#@[") (lit '.') := over_char (by decide)
  have hoctet := over_decOctet
  exact (((((hoctet.mul hdot).mul hoctet).mul hdot).mul hoctet).mul hdot).mul hoctet

theorem over_userinfo : Over (· ∉ text "/?#@") userinfo := by
  apply Over.star
  apply Over.add
  · have hsub : text "/?#@" ⊆ text ":/?#@[" := by decide
    exact over_nameUnit.imp fun c hc hmem => hc (hsub hmem)
  · exact over_char (by decide)

theorem over_pchar : Over (· ∉ text "?#") pchar := by
  refine Over.add (Over.add ?_ (over_char (by decide))) (over_char (by decide))
  refine Over.add (Over.add (Over.add ?_ ?_) ?_) ?_
  · exact over_without (by decide)
  · exact over_without (by decide)
  · exact ((over_char (by decide)).mul (over_without (by decide))).mul
      (over_without (by decide))
  · exact over_without (by decide)

theorem over_path : Over (· ∉ text "?#") pathAbempty := by
  have hsegment : Over (· ∉ text "?#") (lit '/' * segment) :=
    (over_char (by decide)).mul over_pchar.star
  exact (over_opt hsegment).mul hsegment.star

/-- A path that is not empty begins with a slash. -/
theorem path_head {c : UInt8} {cs : List UInt8} (h : c :: cs ∈ pathAbempty.matches') :
    c = ch '/' := by
  have hover : Over (· = ch '/') (lit '/') := over_char rfl
  have hne : [] ∉ (lit '/').matches' := fun hnil => nomatch Set.mem_singleton_iff.mp hnil
  have hsegment : Heads (· = ch '/') (lit '/' * segment) := hover.heads.mul_left hne
  exact (over_one.heads.add hsegment).mul hsegment.star c cs h

theorem over_query : Over (· ∉ text "#") query := by
  apply Over.star
  refine Over.add (Over.add ?_ ?_) ?_
  · have hsub : text "#" ⊆ text "?#" := by decide
    exact over_pchar.imp fun c hc hmem => hc (hsub hmem)
  · exact over_char (by decide)
  · exact over_char (by decide)

/-! ## What is left of a scan -/

/-- The variables behind some actions. -/
def taken (mem : List UInt8) (p : Nat) (as : List Action) (s : Scan) : Scan :=
  (acts (act mem) p as s).1

/-- What `Create` makes of the text that is left. -/
def finish (mem : List UInt8) (q : State) (p : Nat) (s : Scan) (xs : List UInt8) :
    Except Fault (Option Uri) :=
  let o := machine.exec (act mem) q p s xs
  match o.ending with
  | .failed => o.regs.uri.map fun _ => none
  | .running q | .stopped q =>
      match q.leave with
      | none => o.regs.uri.map fun _ => none
      | some as => (taken mem o.pos as o.regs).uri.map some

section Finish

variable {mem xs ys : List UInt8} {q q' : State} {p : Nat} {s s' : Scan} {as bs : List Action}
  {c : UInt8} {r : Re}

theorem create_finish (uristr : List UInt8) :
    Uri.create uristr = finish uristr .start 0 ⟨none, .ok {}⟩ uristr := rfl

theorem taken_append : taken mem p (as ++ bs) s = taken mem p bs (taken mem p as s) := by
  induction as generalizing s with
  | nil => rfl
  | cons a as ih => exact ih

theorem finish_append (h : Machine.Runs machine (act mem) q p s xs q' s' []) (ys : List UInt8) :
    finish mem q p s (xs ++ ys) = finish mem q' (p + xs.length) s' ys := by
  rw [finish, h.exec_append]
  rfl

theorem any_stops (as : List Action) : as.any machine.stops = false :=
  List.any_eq_false.mpr fun _ _ => Bool.false_ne_true

theorem acts_calls (as : List Action) (p : Nat) (s : Scan) : (acts (act mem) p as s).2 = [] := by
  induction as generalizing s with
  | nil => rfl
  | cons a as ih =>
      show (act mem a p s).2 ++ _ = []
      rw [ih]
      cases a <;> rfl

theorem runs_next (mem : List UInt8) (h : next q c = some (q', as)) (p : Nat) (s : Scan) :
    Machine.Runs machine (act mem) q p s [c] q' (taken mem p as s) [] := by
  have hstep : Machine.Runs machine (act mem) q p s [c] q' (acts (act mem) p as s).1
      (acts (act mem) p as s).2 := Machine.Runs.step h (any_stops as) p s
  rwa [acts_calls] at hstep

theorem finish_cons (h : next q c = some (q', as)) (xs : List UInt8) :
    finish mem q p s (c :: xs) = finish mem q' (p + 1) (taken mem p as s) xs := by
  have hstep : machine.exec (act mem) q p s (c :: xs) =
      (machine.exec (act mem) q' (p + 1) (taken mem p as s) xs).after _ :=
    Machine.exec_cons_step h (any_stops as) p s xs
  rw [finish, hstep]
  rfl

theorem finish_nil (h : q.leave = some as) :
    finish mem q p s [] = (taken mem p as s).uri.map some := by
  rw [finish, Machine.exec_nil]
  dsimp only
  rw [h]

/-- Where a text ends, counted from behind its first byte. -/
theorem behind_cons (p : Nat) (c : UInt8) (cs : List UInt8) :
    p + 1 + cs.length = p + (c :: cs).length := by
  rw [List.length_cons]
  omega

theorem slice_eq (h : mem.drop p = xs ++ ys) : slice mem p (p + xs.length) = xs := by
  rw [slice, h, Nat.add_sub_cancel_left, List.take_left']
  rfl

/-! ## Reading on -/

theorem not_dead {w : List UInt8} (h : w ∈ r.matches') : dead r = false := by
  apply Bool.eq_false_iff.mpr
  intro hd
  exact (dead_iff r).mp hd w h

theorem goto_alive {k : Re → State} {w : List UInt8} (h : w ∈ r.matches') :
    goto r k = some (k r, []) := by
  rw [goto, not_dead h]
  rfl

theorem after_nil (t : Option (State × List Action)) : after [] t = t := by
  cases t <;> rfl

/-- A rule that stands alone is read on by its derivatives. -/
theorem runs_rest (mem : List UInt8) (k : Re → State) (P : UInt8 → Prop)
    (hk : ∀ r c, P c → next (k r) c = goto (r.deriv c) k) (h : xs ∈ r.matches')
    (hP : ∀ c ∈ xs, P c) (p : Nat) (s : Scan) :
    Machine.Runs machine (act mem) (k r) p s xs (k (derivs r xs)) s [] := by
  refine Machine.Runs.fold k deriv (fun r xs => xs ∈ r.matches' ∧ ∀ c ∈ xs, P c) ?_ ⟨h, hP⟩ p s
  rintro r c cs ⟨hcs, hP⟩
  obtain ⟨hc, hrest⟩ := List.forall_mem_cons.mp hP
  refine ⟨?_, mem_deriv.mpr hcs, hrest⟩
  exact (hk r c hc).trans (goto_alive (mem_deriv.mpr hcs))

end Finish

/-! ## Path, query and fragment -/

/-- The parts that may be left behind the path. -/
def queryPart (q : Option (List UInt8)) : List UInt8 := q.elim [] (ch '?' :: ·)

def fragmentPart (f : Option (List UInt8)) : List UInt8 := f.elim [] (ch '#' :: ·)

/-- Where a query may end. -/
structure EndsQuery (q : State) (as : List Action) : Prop where
  hash : next q (ch '#') = some (.fragment true query, as)
  leave : q.leave = some as

/-- Where a path may end. -/
structure EndsPath (q : State) (as : List Action) : Prop extends EndsQuery q as where
  mark : next q (ch '?') = some (.query true query, as)

/-- Where an authority may end, of which `save` saves the last part. -/
structure EndsAuthority (q : State) (save : Action) : Prop where
  next : ∀ c ∈ text "/?#", next q c = after [save, .markh] (pathNext true pathAbempty c)
  leave : q.leave = some [save, .markh, .savePath]

section Tail

variable {mem : List UInt8} {q : State} {p : Nat} {s : Scan} {u : Uri} {as : List Action}
  {r : Re} {f : List UInt8} {fragment : Option (List UInt8)}

theorem finish_fragment (hf : f ∈ query.matches') (hmem : mem.drop p = f) :
    finish mem (.fragment true query) p ⟨none, .ok u⟩ f = .ok (some { u with fragment := f }) := by
  have hnil : mem.drop p = f ++ [] := by rw [hmem, List.append_nil]
  have hslice := slice_eq hnil
  cases f with
  | nil =>
      have hleave : (State.fragment true query).leave = some [.marku, .saveFragment] := rfl
      rw [finish_nil hleave]
      show Except.ok (some { u with fragment := slice mem p p }) = _
      rw [List.length_nil, Nat.add_zero] at hslice
      rw [hslice]
  | cons c cs =>
      have hcs := mem_deriv.mpr hf
      have hnext : next (.fragment true query) c =
          some (.fragment false (query.deriv c), [.marku]) := by
        rw [next, goto_alive hcs]
        rfl
      have hruns := runs_rest mem (.fragment false) (fun _ => True)
        (fun r c _ => by rw [next]; exact after_nil _) hcs (fun _ _ => trivial) (p + 1)
        ⟨some p, .ok u⟩
      have hend : (State.fragment false (derivs (query.deriv c) cs)).leave =
          some [.saveFragment] := if_pos (matchEpsilon_derivs hcs)
      have hrest := finish_append hruns []
      rw [List.append_nil] at hrest
      rw [finish_cons hnext]
      refine hrest.trans ?_
      rw [finish_nil hend, behind_cons]
      show Except.ok (some { u with fragment := slice mem p (p + (c :: cs).length) }) = _
      rw [hslice]

/-- Behind a query, or a path without one. -/
theorem finish_fragmentPart (hq : EndsQuery q as)
    (hf : ∀ f ∈ fragment, f ∈ query.matches') (htaken : taken mem p as s = ⟨none, .ok u⟩)
    (hu : u.fragment = []) (hmem : mem.drop p = fragmentPart fragment) :
    finish mem q p s (fragmentPart fragment) =
      .ok (some { u with fragment := fragment.getD [] }) := by
  cases fragment with
  | none =>
      show finish mem q p s [] = _
      rw [finish_nil hq.leave, htaken, Option.getD_none, ← hu]
      rfl
  | some f =>
      show finish mem q p s (ch '#' :: f) = _
      rw [finish_cons hq.hash, htaken]
      apply finish_fragment (hf f rfl)
      rw [← List.tail_drop, hmem]
      rfl

theorem finish_query {t : List UInt8} (ht : t ∈ query.matches')
    (hf : ∀ f ∈ fragment, f ∈ query.matches') (hu : u.fragment = [])
    (hmem : mem.drop p = t ++ fragmentPart fragment) :
    finish mem (.query true query) p ⟨none, .ok u⟩ (t ++ fragmentPart fragment) =
      .ok (some { u with query := t, fragment := fragment.getD [] }) := by
  have hslice := slice_eq hmem
  have hrest : mem.drop (p + t.length) = fragmentPart fragment := by
    rw [← List.drop_drop, hmem, List.drop_left']
    rfl
  cases t with
  | nil =>
      have hends : EndsQuery (.query true query) [.marku, .saveQuery] := ⟨rfl, rfl⟩
      refine finish_fragmentPart (u := { u with query := [] }) hends hf ?_ hu hrest
      show (⟨none, .ok { u with query := slice mem p p }⟩ : Scan) = _
      rw [List.length_nil, Nat.add_zero] at hslice
      rw [hslice]
  | cons c cs =>
      have hcs := mem_deriv.mpr ht
      obtain ⟨hc, hover⟩ := List.forall_mem_cons.mp (over_query _ ht)
      have hne : ∀ c, c ∉ text "#" → c ≠ ch '#' := by
        rintro c hc rfl
        exact hc (by decide)
      have hnext : next (.query true query) c =
          some (.query false (query.deriv c), [.marku]) := by
        rw [next, if_neg (hne c hc), goto_alive hcs]
        rfl
      have hruns := runs_rest mem (.query false) (· ∉ text "#")
        (fun r c hc => by rw [next, if_neg (hne c hc)]; exact after_nil _) hcs hover (p + 1)
        ⟨some p, .ok u⟩
      have hnull := matchEpsilon_derivs hcs
      have hends : EndsQuery (.query false (derivs (query.deriv c) cs)) [.saveQuery] :=
        ⟨if_pos hnull, if_pos hnull⟩
      rw [List.cons_append, finish_cons hnext]
      refine (finish_append hruns (fragmentPart fragment)).trans ?_
      rw [behind_cons]
      refine finish_fragmentPart (u := { u with query := c :: cs }) hends hf ?_ hu hrest
      show (⟨none, .ok { u with query := slice mem p (p + (c :: cs).length) }⟩ : Scan) = _
      rw [hslice]

variable {t : Option (List UInt8)}

/-- Behind a path, or an authority without one. -/
theorem finish_queryPart (hq : EndsPath q as) (ht : ∀ x ∈ t, x ∈ query.matches')
    (hf : ∀ f ∈ fragment, f ∈ query.matches') (htaken : taken mem p as s = ⟨none, .ok u⟩)
    (hu : u.query = [] ∧ u.fragment = [])
    (hmem : mem.drop p = queryPart t ++ fragmentPart fragment) :
    finish mem q p s (queryPart t ++ fragmentPart fragment) =
      .ok (some { u with query := t.getD [], fragment := fragment.getD [] }) := by
  cases t with
  | none =>
      refine (finish_fragmentPart hq.toEndsQuery hf htaken hu.2 hmem).trans ?_
      rw [Option.getD_none, ← hu.1]
  | some x =>
      show finish mem q p s (ch '?' :: (x ++ fragmentPart fragment)) = _
      rw [finish_cons hq.mark, htaken]
      apply finish_query (ht x rfl) hf hu.2
      rw [← List.tail_drop, hmem]
      rfl

/-- **Behind the authority**: the path, the query and the fragment. -/
theorem finish_path {save : Action} {path : List UInt8} (hq : EndsAuthority q save)
    (hpath : path ∈ pathAbempty.matches') (ht : ∀ x ∈ t, x ∈ query.matches')
    (hf : ∀ f ∈ fragment, f ∈ query.matches')
    (htaken : taken mem p [save, .markh] s = ⟨some p, .ok u⟩)
    (hu : u.query = [] ∧ u.fragment = [])
    (hmem : mem.drop p = path ++ (queryPart t ++ fragmentPart fragment)) :
    finish mem q p s (path ++ (queryPart t ++ fragmentPart fragment)) =
      .ok (some { u with path := path, query := t.getD [], fragment := fragment.getD [] }) := by
  have hslice := slice_eq hmem
  have hrest : mem.drop (p + path.length) = queryPart t ++ fragmentPart fragment := by
    rw [← List.drop_drop, hmem, List.drop_left']
    rfl
  have hsaved : taken mem (p + path.length) [.savePath] ⟨some p, .ok u⟩ =
      ⟨none, .ok { u with path := path }⟩ := by
    show (⟨none, .ok { u with path := slice mem p (p + path.length) }⟩ : Scan) = _
    rw [hslice]
  cases path with
  | nil =>
      have hends : EndsPath q ([save, .markh] ++ [.savePath]) :=
        ⟨⟨hq.next _ (by decide), hq.leave⟩, hq.next _ (by decide)⟩
      refine finish_queryPart (u := { u with path := [] }) hends ht hf ?_ hu hrest
      rw [taken_append, htaken]
      exact hsaved
  | cons c cs =>
      have hcs := mem_deriv.mpr hpath
      obtain ⟨hc, hover⟩ := List.forall_mem_cons.mp (over_path _ hpath)
      have hne : ∀ c, c ∉ text "?#" → c ≠ ch '?' ∧ c ≠ ch '#' := by
        intro c hc
        refine ⟨?_, ?_⟩ <;> rintro rfl <;> exact hc (by decide)
      have hpathNext : ∀ r c, c ∉ text "?#" →
          pathNext true r c = goto (r.deriv c) (.path true) := by
        intro r c hc
        rw [pathNext, if_neg (hne c hc).1, if_neg (hne c hc).2]
      have hnext : next q c = some (.path true (pathAbempty.deriv c), [save, .markh]) := by
        rw [hq.next c (by rw [path_head hpath]; decide), hpathNext _ c hc, goto_alive hcs]
        rfl
      have hruns := runs_rest mem (.path true) (· ∉ text "?#")
        hpathNext hcs hover (p + 1) ⟨some p, .ok u⟩
      have hnull := matchEpsilon_derivs hcs
      have hends : EndsPath (.path true (derivs (pathAbempty.deriv c) cs)) [.savePath] :=
        ⟨⟨if_pos hnull, if_pos hnull⟩, if_pos hnull⟩
      rw [List.cons_append, finish_cons hnext, htaken]
      refine (finish_append hruns _).trans ?_
      rw [behind_cons]
      exact finish_queryPart (u := { u with path := c :: cs }) hends ht hf hsaved hu hrest

end Tail

end Hps.UriParser
