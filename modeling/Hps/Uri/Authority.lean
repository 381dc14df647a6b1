import Mathlib.Data.List.TakeWhile
import Hps.Uri.Rules

/-!
# Uri — what the machine does with an authority

As long as no `@` was read, a `userinfo` and a `host` with its `port` are read
side by side, on one `mark`. A `userinfo` whose first `:` stands before a digit
is taken for a host and the beginning of a port, and is marked there anew
(`runs_userinfo`).
-/

namespace Hps.UriParser

open RegularExpression Hps.Lib
open Hps.Http (ch text alpha digit)
open Hps.Http.Request.IP (Re oneOf lit dead dead_iff)

variable {mem : List UInt8} {p : Nat} {s : Scan} {u : Uri} {user rest : Re} {xs ys : List UInt8}
  {c : UInt8}

/-! ## Single bytes -/

/-- What ends or divides an authority. -/
theorem not_special (hc : c ∉ text "/?#@") :
    c ≠ ch '@' ∧ ¬(c = ch '/' ∨ c = ch '?' ∨ c = ch '#') := by
  refine ⟨?_, ?_⟩
  · rintro rfl
    exact hc (by decide)
  · rintro (rfl | rfl | rfl) <;> exact hc (by decide)

/-- A byte of a name. -/
theorem next_authority (fresh : Bool) (user rest : Re) (hc : c ∉ text "/?#@")
    (hcolon : c = ch ':' → rest.matchEpsilon = false)
    (halive : dead (user.deriv c) = false ∨ dead (rest.deriv c) = false) :
    next (.authority true fresh user rest) c =
      some (.authority true false (user.deriv c) (rest.deriv c), if fresh then [.markh] else []) := by
  obtain ⟨hat, hquit⟩ := not_special hc
  have hport : ¬(c = ch ':' ∧ rest.matchEpsilon = true) := by
    rintro ⟨h, hnull⟩
    rw [hcolon h] at hnull
    cases hnull
  have hdead : ¬(dead (user.deriv c) = true ∧ dead (rest.deriv c) = true) := by
    rintro ⟨huser, hrest⟩
    rcases halive with h | h
    · rw [huser] at h
      cases h
    · rw [hrest] at h
      cases h
  rw [next]
  rw [if_neg hat, if_neg hport, if_neg hquit, if_neg hdead]

/-- The colon behind a host. -/
theorem next_colon (fresh : Bool) (user : Re) (hnull : rest.matchEpsilon = true) :
    next (.authority true fresh user rest) (ch ':') =
      some (.port true true (user.deriv (ch ':')) port,
        (if fresh then [.markh] else []) ++ [.saveHost]) := by
  rw [next]
  rw [if_neg (by decide), if_pos ⟨rfl, hnull⟩]

theorem next_at (fresh : Bool) (rest : Re) (hnull : user.matchEpsilon = true) :
    next (.authority true fresh user rest) (ch '@') =
      some (.authority true true 0 host,
        (if fresh then [.markh] else []) ++ [.saveUserinfo]) := by
  rw [next]
  rw [if_pos rfl, if_pos hnull]

theorem ends_plain {c : UInt8} (hc : c ∈ text "/?#") :
    (c = ch '/' ∨ c = ch '?' ∨ c = ch '#') ∧ c ≠ ch '@' ∧ c ≠ ch ':' := by
  have hc' : c = ch '/' ∨ c = ch '?' ∨ c = ch '#' := by simpa [text] using hc
  refine ⟨hc', ?_, ?_⟩
  · rcases hc' with rfl | rfl | rfl <;> decide
  · rcases hc' with rfl | rfl | rfl <;> decide

/-- The slash, the question mark or the hash behind a part of the authority. -/
theorem ends_host (hnull : rest.matchEpsilon = true) :
    EndsAuthority (.authority true false user rest) .saveHost where
  next := by
    intro c hc
    obtain ⟨hc', hat, hcolon⟩ := ends_plain hc
    rw [UriParser.next]
    rw [if_neg hat, if_neg fun h => hcolon h.1, if_pos hc', authorityNext, if_pos hnull]
    rfl
  leave := if_pos hnull

theorem ends_port (hnull : rest.matchEpsilon = true) :
    EndsAuthority (.port true false user rest) .savePort where
  next := by
    intro c hc
    obtain ⟨hc', hat, -⟩ := ends_plain hc
    rw [UriParser.next]
    rw [if_neg hat, if_pos hc', authorityNext, if_pos hnull]
    rfl
  leave := if_pos hnull

/-! ## Names -/

theorem foldl_derivs (user rest : Re) (xs : List UInt8) :
    xs.foldl (fun i c => (i.1.deriv c, i.2.deriv c)) (user, rest) =
      (derivs user xs, derivs rest xs) := by
  induction xs generalizing user rest with
  | nil => rfl
  | cons c xs ih => exact ih _ _

/-- Two rules are read on side by side. -/
theorem runs_both (mem : List UInt8) (k : Re → Re → State) (May : Re → Re → List UInt8 → Prop)
    (hstep : ∀ r s c cs, May r s (c :: cs) →
      next (k r s) c = some (k (r.deriv c) (s.deriv c), []) ∧ May (r.deriv c) (s.deriv c) cs)
    (h : May user rest xs) (p : Nat) (s : Scan) :
    Machine.Runs machine (act mem) (k user rest) p s xs (k (derivs user xs) (derivs rest xs))
      s [] := by
  have hruns : Machine.Runs machine (act mem) (k user rest) p s xs _ s [] :=
    Machine.Runs.fold (fun i : Re × Re => k i.1 i.2) (fun i c => (i.1.deriv c, i.2.deriv c))
      (fun i => May i.1 i.2) (fun i => hstep i.1 i.2) (i := (user, rest)) h p s
  rwa [foldl_derivs] at hruns

/-- Bytes that may all be of the one rule, or all of the other. -/
theorem runs_name (mem : List UInt8) (user rest : Re) (ys : List UInt8)
    (hover : ∀ c ∈ xs, c ∉ text ":/?#@")
    (h : xs ++ ys ∈ user.matches' ∨ xs ++ ys ∈ rest.matches') (p : Nat) (s : Scan) :
    Machine.Runs machine (act mem) (.authority true false user rest) p s xs
      (.authority true false (derivs user xs) (derivs rest xs)) s [] := by
  have hsub : text "/?#@" ⊆ text ":/?#@" := by decide
  refine runs_both mem (.authority true false) (fun user rest xs => (∀ c ∈ xs, c ∉ text ":/?#@") ∧
    (xs ++ ys ∈ user.matches' ∨ xs ++ ys ∈ rest.matches')) ?_ ⟨hover, h⟩ p s
  rintro user rest c cs ⟨hover, h⟩
  obtain ⟨hc, hcs⟩ := List.forall_mem_cons.mp hover
  have hnot : c ∉ text "/?#@" := fun hmem => hc (hsub hmem)
  have hcolon : c ≠ ch ':' := by
    rintro rfl
    exact hc (by decide)
  have hderiv := h.imp mem_deriv.mpr mem_deriv.mpr
  refine ⟨?_, hcs, hderiv⟩
  exact next_authority false user rest hnot (fun h => absurd h hcolon) (hderiv.imp not_dead not_dead)

/-- A name from its first byte on, which is marked. -/
theorem runs_freshName (mem : List UInt8) (user rest : Re) (ys : List UInt8) (hne : xs ≠ [])
    (hover : ∀ c ∈ xs, c ∉ text ":/?#@")
    (h : xs ++ ys ∈ user.matches' ∨ xs ++ ys ∈ rest.matches') (p : Nat) (s : Scan) :
    Machine.Runs machine (act mem) (.authority true true user rest) p s xs
      (.authority true false (derivs user xs) (derivs rest xs)) (s.setMark (some p)) [] := by
  have hsub : text "/?#@" ⊆ text ":/?#@" := by decide
  cases xs with
  | nil => exact absurd rfl hne
  | cons c cs =>
      obtain ⟨hc, hcs⟩ := List.forall_mem_cons.mp hover
      have hnot : c ∉ text "/?#@" := fun hmem => hc (hsub hmem)
      have hcolon : c ≠ ch ':' := by
        rintro rfl
        exact hc (by decide)
      have hderiv := h.imp mem_deriv.mpr mem_deriv.mpr
      have hnext := next_authority true user rest hnot (fun h => absurd h hcolon)
        (hderiv.imp not_dead not_dead)
      exact (runs_next mem hnext p s).append (runs_name mem _ _ ys hcs hderiv (p + 1) _)

/-! ## The host and the port -/

theorem mem_host {h : List UInt8} (hh : h ∈ ipv4address.matches' ∨ h ∈ regName.matches') :
    h ∈ host.matches' := by
  rcases hh with hh | hh
  · exact .inl (.inr hh)
  · exact .inr hh

theorem over_host {h : List UInt8} (hh : h ∈ ipv4address.matches' ∨ h ∈ regName.matches') :
    ∀ c ∈ h, c ∉ text ":/?#@" := by
  have hsub : text ":/?#@" ⊆ text ":/?#@[" := by decide
  intro c hc hmem
  rcases hh with hh | hh
  · exact over_ipv4address h hh c hc (hsub hmem)
  · exact over_regName h hh c hc (hsub hmem)

/-- The host is read to its end, and marked. -/
theorem runs_host (mem : List UInt8) (user : Re) {h : List UInt8} (hne : h ≠ [])
    (hh : h ∈ ipv4address.matches' ∨ h ∈ regName.matches') (p : Nat) (s : Scan) :
    Machine.Runs machine (act mem) (.authority true true user host) p s h
      (.authority true false (derivs user h) (derivs host h)) (s.setMark (some p)) [] := by
  refine runs_freshName mem user host [] hne (over_host hh) (.inr ?_) p s
  rw [List.append_nil]
  exact mem_host hh

theorem over_port : Over (digit · = true) port := (over_oneOf fun _ hc => hc).star

/-- A port is begun by a digit, and by nothing else. -/
theorem dead_port (c : UInt8) : dead (port.deriv c) = !digit c := by
  cases hc : digit c with
  | true =>
      have hport : [c] ∈ port.matches' := mem_star_of_forall fun d hd => by
        rw [List.mem_singleton.mp hd]
        exact mem_oneOf.mpr ⟨c, rfl, hc⟩
      exact not_dead (mem_deriv.mpr hport)
  | false =>
      refine (dead_iff _).mpr fun w hw => ?_
      have hdigit : digit c = true := over_port _ (mem_deriv.mp hw) c List.mem_cons_self
      rw [hc] at hdigit
      cases hdigit

theorem not_special_of_digit (hc : digit c = true) : c ∉ text "/?#@" := by
  have hnone : (text "/?#@").all (!digit ·) = true := by decide
  intro hmem
  have hnot := List.all_eq_true.mp hnone c hmem
  rw [hc] at hnot
  cases hnot

/-- A byte of a port. -/
theorem next_port (fresh : Bool) (user : Re) (hc : c ∉ text "/?#@")
    (halive : dead (rest.deriv c) = false) :
    next (.port true fresh user rest) c =
      some (.port true false (user.deriv c) (rest.deriv c), if fresh then [.markh] else []) := by
  obtain ⟨hat, hquit⟩ := not_special hc
  rw [next, if_neg hat, if_neg hquit, if_neg (Bool.eq_false_iff.mp halive)]

/-- The colon and the port behind a host, which is saved. -/
theorem runs_port (mem : List UInt8) (user : Re) {ds : List UInt8} (hne : ds ≠ [])
    (hds : ds ∈ port.matches')
    (hnull : rest.matchEpsilon = true) (p : Nat) (s : Scan) :
    ∃ user', Machine.Runs machine (act mem) (.authority true false user rest) p s (ch ':' :: ds)
      (.port true false user' (derivs port ds))
      ((s.saveMarked mem Uri.setHost p).setMark (some (p + 1))) [] := by
  cases ds with
  | nil => exact absurd rfl hne
  | cons d ds =>
      obtain ⟨hd, hdigits⟩ := List.forall_mem_cons.mp (over_port _ hds)
      have hrest := mem_deriv.mpr hds
      have hcolon := runs_next mem (next_colon false user hnull) p s
      have hfirst := next_port true (user.deriv (ch ':')) (not_special_of_digit hd) (not_dead hrest)
      have hloop : ∀ user s, Machine.Runs machine (act mem) (.port true false user (port.deriv d))
          (p + 1 + 1) s ds (.port true false (derivs user ds) (derivs (port.deriv d) ds)) s [] :=
        fun user s => runs_both mem (.port true false)
        (fun _ rest xs => (∀ c ∈ xs, digit c = true) ∧ xs ∈ rest.matches')
        (by
          rintro user rest c cs ⟨hover, h⟩
          obtain ⟨hc, hcs⟩ := List.forall_mem_cons.mp hover
          have hrest := mem_deriv.mpr h
          exact ⟨next_port false user (not_special_of_digit hc) (not_dead hrest), hcs, hrest⟩)
        ⟨hdigits, hrest⟩ (p + 1 + 1) s
      exact ⟨_, hcolon.append ((runs_next mem hfirst (p + 1) _).append (hloop _ _))⟩

/-! ## The userinfo -/

/-- What stands behind the first colon. -/
def behindColon (v : List UInt8) : List UInt8 := (v.dropWhile (· != ch ':')).drop 1

/-- Behind its first colon stands a digit, as behind that of a port. -/
def portLike (v : List UInt8) : Bool := (behindColon v).head?.any digit

/-- What is saved of a userinfo. -/
def savedUserinfo (v : List UInt8) : List UInt8 := if portLike v then behindColon v else v

/-- Only the `userinfo` may still be read to its end. -/
def UserOnly (user : Re) (q : State) : Prop :=
  q = .authority true false user 0 ∨ ∃ rest, q = .port true false user rest

theorem UserOnly.next {q : State} (hq : UserOnly user q) (hc : c ∉ text "/?#@")
    (halive : dead (user.deriv c) = false) :
    ∃ q', next q c = some (q', []) ∧ UserOnly (user.deriv c) q' := by
  rcases hq with rfl | ⟨rest, rfl⟩
  · exact ⟨_, next_authority false user 0 hc (fun _ => rfl) (.inl halive), .inl rfl⟩
  · cases hrest : dead (rest.deriv c) with
    | true =>
        obtain ⟨hat, hquit⟩ := not_special hc
        refine ⟨.authority true false (user.deriv c) 0, ?_, .inl rfl⟩
        rw [UriParser.next, if_neg hat, if_neg hquit, if_pos hrest, goto, halive]
        rfl
    | false => exact ⟨_, next_port false user hc hrest, .inr ⟨_, rfl⟩⟩

theorem UserOnly.next_at {q : State} (hq : UserOnly user q) (hnull : user.matchEpsilon = true) :
    UriParser.next q (ch '@') = some (.authority true true 0 host, [.saveUserinfo]) := by
  rcases hq with rfl | ⟨rest, rfl⟩
  · exact UriParser.next_at false 0 hnull
  · rw [UriParser.next, if_pos rfl, if_pos hnull]

theorem UserOnly.runs {q : State} (hq : UserOnly user q) (h : xs ∈ user.matches')
    (hover : ∀ c ∈ xs, c ∉ text "/?#@") (p : Nat) (s : Scan) :
    Machine.Runs machine (act mem) q p s (xs ++ [ch '@']) (.authority true true 0 host)
      (taken mem (p + xs.length) [.saveUserinfo] s) [] := by
  induction xs generalizing user q p with
  | nil => exact runs_next mem (hq.next_at (matchEpsilon_iff.mpr h)) p s
  | cons c xs ih =>
      obtain ⟨hc, hcs⟩ := List.forall_mem_cons.mp hover
      have hrest := mem_deriv.mpr h
      obtain ⟨q', hnext, hq'⟩ := hq.next hc (not_dead hrest)
      have hruns := (runs_next mem hnext p s).append (ih hq' hrest hcs (p + 1))
      rw [behind_cons] at hruns
      exact hruns

/-- A userinfo up to its first colon is read as a host. -/
theorem runs_colon (mem : List UInt8) {name tail : List UInt8} (hname : name ∈ regName.matches')
    (h : name ++ ch ':' :: tail ∈ userinfo.matches') (p : Nat) (u : Uri) :
    ∃ v, Machine.Runs machine (act mem) (.authority true true userinfo host) p ⟨none, .ok u⟩
      (name ++ [ch ':']) (.port true true (derivs userinfo (name ++ [ch ':'])) port)
      ⟨some p, .ok { u with host := v }⟩ [] := by
  have hcolon : derivs userinfo (name ++ [ch ':']) = (derivs userinfo name).deriv (ch ':') := by
    rw [derivs, List.foldl_append]
    rfl
  rw [hcolon]
  cases name with
  | nil => exact ⟨_, runs_next mem (next_colon true userinfo rfl) p ⟨none, .ok u⟩⟩
  | cons c cs =>
      have hnull : (derivs host (c :: cs)).matchEpsilon = true :=
        matchEpsilon_derivs (mem_host (.inr hname))
      have hnamed := runs_freshName mem userinfo host _ (List.cons_ne_nil c cs)
        (over_host (.inr hname)) (.inl h) p ⟨none, .ok u⟩
      have hsaved := runs_next mem (next_colon false (derivs userinfo (c :: cs)) hnull)
        (p + (c :: cs).length) ⟨some p, .ok u⟩
      exact ⟨_, hnamed.append hsaved⟩

/-- Behind that colon, a digit is marked as the beginning of a port. -/
theorem runs_behindColon (mem : List UInt8) (h : xs ∈ user.matches')
    (hover : ∀ c ∈ xs, c ∉ text "/?#@") (p : Nat) (s : Scan) :
    Machine.Runs machine (act mem) (.port true true user port) p s (xs ++ [ch '@'])
      (.authority true true 0 host) (taken mem (p + xs.length) [.saveUserinfo]
        (if xs.head?.any digit then s.setMark (some p) else s)) [] := by
  cases xs with
  | nil =>
      have hat : next (.port true true user port) (ch '@') =
          some (.authority true true 0 host, [.saveUserinfo]) := by
        rw [next, if_pos rfl, if_pos (matchEpsilon_iff.mpr h)]
      exact runs_next mem hat p s
  | cons c cs =>
      obtain ⟨hc, hcs⟩ := List.forall_mem_cons.mp hover
      have hrest := mem_deriv.mpr h
      rw [← behind_cons]
      show Machine.Runs machine (act mem) _ p s ([c] ++ (cs ++ [ch '@'])) _ (taken mem _ _
        (if digit c then s.setMark (some p) else s)) _
      cases hd : digit c with
      | true =>
          have hport : dead (port.deriv c) = false := by rw [dead_port, hd]; rfl
          have hnext := next_port true user hc hport
          exact (runs_next mem hnext p s).append (UserOnly.runs (.inr ⟨_, rfl⟩) hrest hcs (p + 1) _)
      | false =>
          have hport : dead (port.deriv c) = true := by rw [dead_port, hd]; rfl
          obtain ⟨hat, hquit⟩ := not_special hc
          have hnext : next (.port true true user port) c =
              some (.authority true false (user.deriv c) 0, []) := by
            rw [next, if_neg hat, if_neg hquit, if_pos hport, goto_alive hrest]
          exact (runs_next mem hnext p s).append (UserOnly.runs (.inl rfl) hrest hcs (p + 1) s)

theorem mem_split {v : List UInt8} (hcolon : v.dropWhile (· != ch ':') ≠ []) :
    v.takeWhile (· != ch ':') ++ ch ':' :: behindColon v = v ∧
      ch ':' ∉ v.takeWhile (· != ch ':') := by
  constructor
  · have hhead := List.head?_dropWhile_not (· != ch ':') v
    have hsplit : v.dropWhile (· != ch ':') = ch ':' :: behindColon v := by
      rw [behindColon]
      cases hd : v.dropWhile (· != ch ':') with
      | nil => exact absurd hd hcolon
      | cons c cs =>
          rw [hd] at hhead
          have hc : c = ch ':' := by simpa using hhead
          rw [hc]
          rfl
    rw [← hsplit, List.takeWhile_append_dropWhile]
  · intro hmem
    have := List.mem_takeWhile_imp hmem
    simp at this

/-- A userinfo without a colon is a name, and saved as it is. -/
theorem runs_userinfoName {v tail : List UInt8} (hv : v ∈ userinfo.matches')
    (hname : ∀ c ∈ v, c ∉ text ":/?#@") (hmem : mem.drop p = v ++ tail) (u : Uri) :
    Machine.Runs machine (act mem) (.authority true true userinfo host) p ⟨none, .ok u⟩
      (v ++ [ch '@']) (.authority true true 0 host) ⟨none, .ok { u with userinfo := v }⟩ [] := by
  have hslice := slice_eq hmem
  cases v with
  | nil =>
      have hnull : userinfo.matchEpsilon = true := rfl
      have hat := runs_next mem (next_at true host hnull) p ⟨none, .ok u⟩
      rw [List.length_nil, Nat.add_zero] at hslice
      have htaken : taken mem p ([.markh] ++ [.saveUserinfo]) ⟨none, .ok u⟩ =
          ⟨none, .ok { u with userinfo := slice mem p p }⟩ := rfl
      rw [hslice] at htaken
      rw [← htaken]
      exact hat
  | cons c cs =>
      have hnil : c :: cs ++ [] ∈ userinfo.matches' := by rwa [List.append_nil]
      have hruns := runs_freshName mem userinfo host [] (List.cons_ne_nil c cs) hname
        (.inl hnil) p ⟨none, .ok u⟩
      have hat := runs_next mem
        (next_at false (derivs host (c :: cs)) (matchEpsilon_derivs hv))
        (p + (c :: cs).length) ⟨some p, .ok u⟩
      have htaken : taken mem (p + (c :: cs).length) ([] ++ [.saveUserinfo]) ⟨some p, .ok u⟩ =
          ⟨none, .ok { u with userinfo := slice mem p (p + (c :: cs).length) }⟩ := rfl
      rw [hslice] at htaken
      rw [← htaken]
      exact hruns.append hat

/-- One with a colon is read as a host up to there, and then as a port if a digit
stands behind it. -/
theorem runs_userinfoColon {name w tail : List UInt8} (hname : name ∈ regName.matches')
    (hv : name ++ ch ':' :: w ∈ userinfo.matches') (hover : ∀ c ∈ w, c ∉ text "/?#@")
    (hmem : mem.drop p = name ++ ch ':' :: w ++ tail) (u : Uri) :
    ∃ h, Machine.Runs machine (act mem) (.authority true true userinfo host) p ⟨none, .ok u⟩
      (name ++ ch ':' :: w ++ [ch '@']) (.authority true true 0 host)
      ⟨none, .ok { u with
        host := h
        userinfo := if w.head?.any digit then w else name ++ ch ':' :: w }⟩ [] := by
  obtain ⟨h, hruns⟩ := runs_colon mem hname hv p u
  refine ⟨h, ?_⟩
  have htext : ∀ ys, name ++ [ch ':'] ++ (w ++ ys) = name ++ ch ':' :: w ++ ys := by
    intro ys
    rw [List.append_assoc, List.append_assoc]
    rfl
  have hlen : p + (name ++ [ch ':']).length + w.length = p + (name ++ ch ':' :: w).length := by
    rw [Nat.add_assoc, ← List.length_append, List.append_assoc, List.singleton_append]
  have hrest : w ∈ (derivs userinfo (name ++ [ch ':'])).matches' := by
    rw [mem_derivs, List.append_assoc]
    exact hv
  have hdrop : mem.drop (p + (name ++ [ch ':']).length) = w ++ tail := by
    rw [← List.drop_drop, hmem, ← htext, List.drop_left']
    rfl
  have hslice := slice_eq hmem
  have hsliceBehind := slice_eq hdrop
  rw [hlen] at hsliceBehind
  have hsecond := hruns.append (runs_behindColon mem hrest hover
    (p + (name ++ [ch ':']).length) ⟨some p, .ok { u with host := h }⟩)
  rw [htext, hlen] at hsecond
  cases hdigit : w.head?.any digit with
  | true =>
      have htaken : taken mem (p + (name ++ ch ':' :: w).length) [.saveUserinfo]
          (Scan.setMark (some (p + (name ++ [ch ':']).length))
            ⟨some p, .ok { u with host := h }⟩) =
          ⟨none, .ok { u with
            host := h
            userinfo := slice mem (p + (name ++ [ch ':']).length)
              (p + (name ++ ch ':' :: w).length) }⟩ := rfl
      rw [hsliceBehind] at htaken
      rw [if_pos hdigit, htaken] at hsecond
      exact hsecond
  | false =>
      have htaken : taken mem (p + (name ++ ch ':' :: w).length) [.saveUserinfo]
          ⟨some p, .ok { u with host := h }⟩ =
          ⟨none, .ok { u with
            host := h
            userinfo := slice mem p (p + (name ++ ch ':' :: w).length) }⟩ := rfl
      rw [hslice] at htaken
      rw [if_neg (by rw [hdigit]; exact Bool.false_ne_true), htaken] at hsecond
      exact hsecond

/-- **The userinfo**: it is saved up to the `@`, from its first byte on, or
from the digit on that stands behind its first colon. -/
theorem runs_userinfo {v tail : List UInt8} (hv : v ∈ userinfo.matches')
    (hmem : mem.drop p = v ++ tail) (u : Uri) :
    ∃ h, Machine.Runs machine (act mem) (.authority true true userinfo host) p ⟨none, .ok u⟩
      (v ++ [ch '@']) (.authority true true 0 host)
      ⟨none, .ok { u with host := h, userinfo := savedUserinfo v }⟩ [] := by
  have hover := over_userinfo v hv
  by_cases hcolon : v.dropWhile (· != ch ':') = []
  · have hsaved : savedUserinfo v = v := by
      rw [savedUserinfo, portLike, behindColon, hcolon]
      rfl
    have hname : ∀ c ∈ v, c ∉ text ":/?#@" := by
      intro c hc hmem
      have hne : c ≠ ch ':' := by
        simpa using List.dropWhile_eq_nil_iff.mp hcolon c hc
      rcases List.mem_cons.mp hmem with h | h
      · exact hne h
      · exact hover c hc h
    rw [hsaved]
    exact ⟨u.host, runs_userinfoName hv hname hmem u⟩
  · obtain ⟨hsplit, hnot⟩ := mem_split hcolon
    rw [← hsplit] at hmem
    have hv' : v.takeWhile (· != ch ':') ++ ch ':' :: behindColon v ∈ userinfo.matches' := by
      rwa [hsplit]
    obtain ⟨hname, -⟩ :=
      cut_star (over_nameUnit.imp fun c hc h => hc (by rw [h]; decide)) hv' hnot
    have hbehind : ∀ c ∈ behindColon v, c ∉ text "/?#@" := by
      intro c hc
      apply hover c
      rw [← hsplit]
      exact List.mem_append_right _ (List.mem_cons_of_mem _ hc)
    obtain ⟨h, hruns⟩ := runs_userinfoColon hname hv' hbehind hmem u
    rw [hsplit] at hruns
    exact ⟨h, hruns⟩

end Hps.UriParser
