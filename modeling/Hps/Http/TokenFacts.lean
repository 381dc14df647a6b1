import Hps.Http.Tokens

/-!
# HTTP — what the grammar says of the tokens

Two facts about a scan. Of every part of a request but the headers there is
at most one token, and they come in the order of the request line
(`scan_parts`). And a token spans what its rule says: the method is made of
upper-case letters and digits and stands before a blank, the version is one
of two texts, a name ends before its value (`scan_wellFormed`).
-/

namespace Hps.Http.Request

open Hps.Lib

/-! ## The order of the parts -/

/-- The parts of a request that a token can set. -/
inductive Part where
  | method | path | query | fragment | version | headers
  deriving DecidableEq, Repr

def Part.rank : Part → Nat
  | .method => 0
  | .path => 1
  | .query => 2
  | .fragment => 3
  | .version => 4
  | .headers => 5

def Action.part : Action → Option Part
  | .requestMethod => some .method
  | .requestPath => some .path
  | .queryString => some .query
  | .fragment => some .fragment
  | .httpVersion => some .version
  | .writeValue => some .headers
  | _ => none

def Token.part : Token → Option Part
  | .element .requestMethod _ _ => some .method
  | .element .requestPath _ _ => some .path
  | .element .fragment _ _ => some .fragment
  | .element .httpVersion _ _ => some .version
  | .element _ _ _ => none
  | .query _ _ => some .query
  | .headerDone => none
  | .field _ _ _ _ _ => some .headers

/-- The rank of the first part that is still to come. -/
def State.stage : State → Nat
  | .start | .method _ => 0
  | .uri | .scheme | .path _ | .xmlTag | .xmlName | .jsonPath _ => 1
  | .queryStart | .query | .queryPct | .queryPctDigit => 2
  | .fragmentStart | .fragment | .fragmentPct | .fragmentPctDigit => 3
  | .version _ => 4
  | _ => 5

/-- From stage `n` to stage `k`: the actions set at most one part, one that
is due, and pass on to what comes behind it. They are `done` exactly on the
way to a final state. -/
def Advances (n k : Nat) (final : Bool) (as : List Action) : Prop :=
  n ≤ k ∧ as.any (machine false).stops = final ∧
    (as.filterMap Action.part).length ≤ 1 ∧
    ∀ κ ∈ as.filterMap Action.part, n ≤ κ.rank ∧ (κ = .headers ∨ κ.rank < k)

instance (n k : Nat) (final : Bool) (as : List Action) :
    Decidable (Advances n k final as) :=
  inferInstanceAs (Decidable (_ ∧ _ ∧ _ ∧ _))

theorem uriNext_cases {relaxed : Bool} {s : PathState} {ent : List Action}
    {c : UInt8} {q' : State} {as : List Action}
    (h : uriNext relaxed s ent c = some (q', as)) :
    (q' = .version 0 ∧ as = ent ++ [.requestPath, .requestUri]) ∨
    (q' = .fragmentStart ∧ as = ent ++ [.requestPath, .requestUri]) ∨
    (q' = .queryStart ∧ as = ent ++ [.requestPath]) ∨
    (∃ s', q' = .path s' ∧ as = ent) := by
  unfold uriNext at h
  split at h
  · cases h; exact .inl ⟨rfl, rfl⟩
  · split at h
    · cases h; exact .inr (.inl ⟨rfl, rfl⟩)
    · split at h
      · cases h; exact .inr (.inr (.inl ⟨rfl, rfl⟩))
      · obtain ⟨s', -, hs⟩ := Option.map_eq_some_iff.mp h
        cases hs
        exact .inr (.inr (.inr ⟨s', rfl, rfl⟩))

theorem queryNext_cases {relaxed : Bool} {ent : List Action} {c : UInt8}
    {q' : State} {as : List Action}
    (h : queryNext relaxed ent c = some (q', as)) :
    (q' = .version 0 ∧ as = ent ++ [.queryString, .requestUri]) ∨
    (q' = .fragmentStart ∧ as = ent ++ [.queryString, .requestUri]) ∨
    ((q' = .queryPct ∨ q' = .query) ∧ as = ent) := by
  unfold queryNext at h
  split at h
  · cases h; exact .inl ⟨rfl, rfl⟩
  · split at h
    · cases h; exact .inr (.inl ⟨rfl, rfl⟩)
    · split at h
      · cases h; exact .inr (.inr ⟨.inl rfl, rfl⟩)
      · split at h
        · cases h; exact .inr (.inr ⟨.inr rfl, rfl⟩)
        · cases h

theorem fragmentNext_cases {relaxed : Bool} {ent : List Action} {c : UInt8}
    {q' : State} {as : List Action}
    (h : fragmentNext relaxed ent c = some (q', as)) :
    (q' = .version 0 ∧ as = ent ++ [.fragment]) ∨
    ((q' = .fragmentPct ∨ q' = .fragment) ∧ as = ent) := by
  unfold fragmentNext at h
  split at h
  · cases h; exact .inl ⟨rfl, rfl⟩
  · split at h
    · cases h; exact .inr ⟨.inl rfl, rfl⟩
    · split at h
      · cases h; exact .inr ⟨.inr rfl, rfl⟩
      · cases h

theorem versionNext_cases {n : Nat} {c : UInt8} {q' : State}
    {as : List Action} (h : versionNext n c = some (q', as)) :
    (n < 7 ∧ versionText[n]? = some c ∧ q' = .version (n + 1) ∧
      as = if n = 0 then [.mark] else []) ∨
    (n = 7 ∧ (c = ch '0' ∨ c = ch '1') ∧ q' = .version 8 ∧ as = []) ∨
    (7 < n ∧ (q' = .line ∨ q' = .crlf) ∧ as = [.httpVersion]) := by
  unfold versionNext at h
  split at h
  · rename_i hn
    split at h
    · cases h; exact .inl ⟨hn, ‹_›, rfl, rfl⟩
    · cases h
  · split at h
    · rename_i hn
      split at h
      · cases h; exact .inr (.inl ⟨hn, ‹_›, rfl, rfl⟩)
      · cases h
    · have hn : 7 < n := by omega
      split at h
      · cases h; exact .inr (.inr ⟨hn, .inl rfl, rfl⟩)
      · split at h
        · cases h; exact .inr (.inr ⟨hn, .inr rfl, rfl⟩)
        · cases h

theorem valueNext_cases {ent : List Action} {c : UInt8} {q' : State}
    {as : List Action} (h : valueNext ent c = some (q', as)) :
    ((q' = .line ∨ q' = .crlf) ∧ as = ent ++ [.writeValue]) ∨
    (q' = .fieldValue ∧ as = ent) := by
  unfold valueNext at h
  split at h
  · cases h; exact .inl ⟨.inl rfl, rfl⟩
  · split at h
    · cases h; exact .inl ⟨.inr rfl, rfl⟩
    · split at h
      · cases h
      · cases h; exact .inr ⟨rfl, rfl⟩

theorem nameNext_cases {c : UInt8} {q' : State} {as : List Action}
    (h : nameNext c = some (q', as)) :
    (q' = .fieldLws ∧ as = [.writeField]) ∨ (q' = .fieldName ∧ as = []) := by
  unfold nameNext at h
  split at h
  · cases h; exact .inl ⟨rfl, rfl⟩
  · split at h
    · cases h; exact .inr ⟨rfl, rfl⟩
    · cases h

section Advancing

variable {relaxed : Bool} {c : UInt8} {q' : State} {ent as : List Action}

theorem advances_uriNext {s : PathState} (hent : ent = [] ∨ ent = [.mark])
    (h : uriNext relaxed s ent c = some (q', as)) : Advances 1 q'.stage q'.final as := by
  rcases hent with rfl | rfl
  all_goals
    rcases uriNext_cases h with ⟨rfl, rfl⟩ | ⟨rfl, rfl⟩ | ⟨rfl, rfl⟩ | ⟨s', rfl, rfl⟩ <;>
      (simp only [State.stage, State.final]; decide)

theorem advances_queryNext (hent : ent = [] ∨ ent = [.startQuery])
    (h : queryNext relaxed ent c = some (q', as)) : Advances 2 q'.stage q'.final as := by
  rcases hent with rfl | rfl
  all_goals
    rcases queryNext_cases h with ⟨rfl, rfl⟩ | ⟨rfl, rfl⟩ | ⟨rfl | rfl, rfl⟩ <;>
      (simp only [State.stage, State.final]; decide)

theorem advances_fragmentNext (hent : ent = [] ∨ ent = [.mark])
    (h : fragmentNext relaxed ent c = some (q', as)) : Advances 3 q'.stage q'.final as := by
  rcases hent with rfl | rfl
  all_goals
    rcases fragmentNext_cases h with ⟨rfl, rfl⟩ | ⟨rfl | rfl, rfl⟩ <;>
      (simp only [State.stage, State.final]; decide)

theorem advances_versionNext {n : Nat} (h : versionNext n c = some (q', as)) :
    Advances 4 q'.stage q'.final as := by
  rcases versionNext_cases h with ⟨-, -, rfl, rfl⟩ | ⟨-, -, rfl, rfl⟩ | ⟨-, rfl | rfl, rfl⟩
  · split_ifs <;> (simp only [State.stage, State.final]; decide)
  all_goals (simp only [State.stage, State.final]; decide)

theorem advances_valueNext (hent : ent = [] ∨ ent = [.startValue])
    (h : valueNext ent c = some (q', as)) : Advances 5 q'.stage q'.final as := by
  rcases hent with rfl | rfl
  all_goals
    rcases valueNext_cases h with ⟨rfl | rfl, rfl⟩ | ⟨rfl, rfl⟩ <;>
      (simp only [State.stage, State.final]; decide)

theorem advances_nameNext (h : nameNext c = some (q', as)) :
    Advances 5 q'.stage q'.final as := by
  rcases nameNext_cases h with ⟨rfl, rfl⟩ | ⟨rfl, rfl⟩ <;>
    (simp only [State.stage, State.final]; decide)

/-- **Every transition sets at most one part, the one that is due.** -/
theorem next_advances {q : State} (h : State.next relaxed q c = some (q', as)) :
    Advances q.stage q'.stage q'.final as := by
  cases q with
  | uri =>
      simp only [State.next] at h
      split_ifs at h
      · cases h
        simp only [State.stage, State.final]
        decide
      · exact advances_uriNext (.inr rfl) h
  | scheme =>
      simp only [State.next] at h
      split_ifs at h
      · cases h
        simp only [State.stage, State.final]
        decide
      · cases h
        simp only [State.stage, State.final]
        decide
      · exact advances_uriNext (.inl rfl) h
  | path s =>
      cases s
      case hierPart => exact advances_uriNext (.inr rfl) h
      all_goals exact advances_uriNext (.inl rfl) h
  | queryStart => exact advances_queryNext (.inr rfl) h
  | query => exact advances_queryNext (.inl rfl) h
  | fragmentStart => exact advances_fragmentNext (.inr rfl) h
  | fragment => exact advances_fragmentNext (.inl rfl) h
  | version n => exact advances_versionNext h
  | lineCr =>
      simp only [State.next] at h
      split_ifs at h
      · cases h
        simp only [State.stage, State.final]
        decide
      · exact advances_nameNext h
  | fieldName => exact advances_nameNext h
  | finished => exact advances_nameNext h
  | fieldLws =>
      simp only [State.next] at h
      split_ifs at h
      · cases h
        simp only [State.stage, State.final]
        decide
      · exact advances_valueNext (.inr rfl) h
  | fieldValue => exact advances_valueNext (.inl rfl) h
  | jsonPath s =>
      simp only [State.next] at h
      split_ifs at h
      · cases h
        simp only [State.stage, State.final]
        decide
      · obtain ⟨s', -, hs⟩ := Option.map_eq_some_iff.mp h
        cases hs
        simp only [State.stage, State.final]
        decide
  | socketFinished => cases h
  | _ =>
      -- no other state leaves the choice to one of the tables above
      simp only [State.next] at h
      split_ifs at h <;> cases h <;>
        (simp only [State.stage, State.final]; decide)

end Advancing

theorem acts_parts (as : List Action) (p : Nat) (m : Marks) :
    (acts scanAct p as m).2.filterMap Token.part =
      as.filterMap Action.part := by
  induction as generalizing m with
  | nil => rfl
  | cons a as ih =>
      simp only [acts, List.filterMap_append, ih]
      cases a
      case done =>
        simp only [scanAct]
        split_ifs <;> rfl
      all_goals rfl

/-- Two tokens set different parts, or are both fields. -/
def Apart (x y : Token) : Prop :=
  ∀ κ, x.part = some κ → y.part = some κ → κ = .headers

theorem pairwise_apart {ts : List Token}
    (h : (ts.filterMap Token.part).length ≤ 1) : ts.Pairwise Apart := by
  induction ts with
  | nil => exact .nil
  | cons t ts ih =>
      cases ht : t.part with
      | none =>
          refine .cons ?_ (ih (by simpa [ht] using h))
          intro y _ κ hκ
          rw [ht] at hκ
          cases hκ
      | some κ =>
          have hnone : ts.filterMap Token.part = [] := by
            rw [List.filterMap_cons_some ht, List.length_cons] at h
            exact List.eq_nil_of_length_eq_zero (by omega)
          refine .cons ?_ (ih (by simp [hnone]))
          intro y hy κ' _ hκ'
          have := List.filterMap_eq_nil_iff.mp hnone y hy
          rw [this] at hκ'
          cases hκ'

/-- **The tokens of a run set different parts of the request**, but for the
headers. -/
theorem scan_parts (relaxed : Bool) (q : State) (p : Nat) (m : Marks)
    (cs : List UInt8) :
    ((machine relaxed).exec scanAct q p m cs).calls.Pairwise Apart := by
  refine (Machine.exec_ordered
    (fun q t => ∀ κ, t.part = some κ → q.stage ≤ κ.rank) ?_ q p m cs).2
  intro q c q' as p m hn
  obtain ⟨hle, -, hone, hdue⟩ := next_advances hn
  rw [← acts_parts as p m] at hone hdue
  refine ⟨?_, pairwise_apart hone, ?_⟩
  · intro x hx
    refine ⟨fun κ hκ => (hdue κ (List.mem_filterMap.mpr ⟨x, hx, hκ⟩)).1, ?_⟩
    intro y hy κ hκ hκ'
    rcases (hdue κ (List.mem_filterMap.mpr ⟨x, hx, hκ⟩)).2 with h | h
    · exact h
    · have := hy κ hκ'
      omega
  · intro y hy κ hκ
    exact hle.trans (hy κ hκ)

/-- A run that goes on has not reached a final state, and one that stopped
has. -/
theorem scan_final {relaxed : Bool} {q q' : State} (hq : q.final = false)
    (p : Nat) (m : Marks) (cs : List UInt8) :
    (((machine relaxed).exec scanAct q p m cs).ending = .running q' →
      q'.final = false) ∧
    (((machine relaxed).exec scanAct q p m cs).ending = .stopped q' →
      q'.final = true) := by
  induction cs generalizing q p m with
  | nil =>
      refine ⟨fun h => ?_, by simp⟩
      cases h
      exact hq
  | cons c cs ih =>
      rcases Machine.exec_cons_cases (machine relaxed) scanAct q p m c cs with
        ⟨_, he⟩ | ⟨q₁, as, hn, hs, he⟩ | ⟨q₁, as, hn, hs, he⟩
      · rw [he]
        exact ⟨by simp, by simp⟩
      · have hf : q₁.final = true := (next_advances hn).2.1 ▸ hs
        rw [he]
        refine ⟨by simp, fun h => ?_⟩
        cases h
        exact hf
      · have hf : q₁.final = false := (next_advances hn).2.1 ▸ hs
        rw [he]
        exact ih hf _ _

/-! ## Where the tokens stand -/

/-- The position of the byte that ends the token. -/
def Token.stop : Token → Option Nat
  | .element _ _ e => some e
  | .query _ e => some e
  | .headerDone => none
  | .field _ _ _ _ e => some e

theorem scanAct_stop (a : Action) (p : Nat) (m : Marks) :
    ∀ t ∈ (scanAct a p m).2, ∀ e, t.stop = some e → e = p := by
  intro t ht e he
  cases a <;> simp only [scanAct] at ht
  case done =>
    split_ifs at ht
    · cases ht
    · obtain rfl := List.mem_singleton.mp ht
      cases he
  all_goals
    first
    | cases ht; done
    | obtain rfl := List.mem_singleton.mp ht
      exact (Option.some.inj he).symm

theorem scan_stop {relaxed : Bool} {q : State} {p : Nat} {m : Marks}
    {cs : List UInt8} {t : Token} {e : Nat}
    (ht : t ∈ ((machine relaxed).exec scanAct q p m cs).calls)
    (he : t.stop = some e) : p ≤ e ∧ e < p + cs.length := by
  obtain ⟨i, h1, h2, h3⟩ := Machine.exec_calls
    (P := fun i t => ∀ e, t.stop = some e → e = i) scanAct_stop q p m cs t ht
  rw [h3 e he]
  exact ⟨h1, h2⟩

/-! ## What the tokens span -/

theorem slice_succ {b : List UInt8} {i p : Nat} {c : UInt8} (hi : i ≤ p)
    (hc : b[p]? = some c) : slice b i (p + 1) = slice b i p ++ [c] := by
  unfold slice
  rw [show p + 1 - i = p - i + 1 by omega, List.take_add_one, List.getElem?_drop,
    show i + (p - i) = p by omega, hc]
  rfl

@[simp] theorem slice_self (b : List UInt8) (i : Nat) : slice b i i = [] := by
  simp [slice]

/-- The bytes of a method. -/
def methodChar (c : UInt8) : Bool := upper c || digit c

/-- What the version looks like after `n` of its bytes. -/
def VersionPrefix (n : Nat) (t : List UInt8) : Prop :=
  if n ≤ 7 then t = versionText.take n
  else t = text "HTTP/1.0" ∨ t = text "HTTP/1.1"

/-- What the grammar says of a token of the string `b`. -/
def Token.WellFormed (b : List UInt8) : Token → Prop
  | .element .requestMethod s e =>
      s = 0 ∧ (slice b 0 e).all methodChar ∧ b[e]? = some (ch ' ')
  | .element .httpVersion s e =>
      e = s + 8 ∧ (slice b s e = text "HTTP/1.0" ∨ slice b s e = text "HTTP/1.1")
  | .element .queryString _ _ => False
  | .element _ s e => s ≤ e
  | .query start e => ∃ i, start = some i ∧ i ≤ e
  | .headerDone => True
  | .field s ns ne vs e => s = ns ∧ s ≤ ne ∧ ne ≤ e ∧ vs ≤ e

/-- What the registers of a scan hold in a state. -/
def State.Holds (b : List UInt8) (p : Nat) (m : Marks) : State → Prop
  | .start => p = 0
  | .method _ => m.mark = 0 ∧ (slice b 0 p).all methodChar
  | .query | .queryPct | .queryPctDigit => ∃ i, m.query = some i ∧ i ≤ p
  | .version n =>
      n ≤ 8 ∧ (0 < n → m.mark + n = p ∧ VersionPrefix n (slice b m.mark p))
  | .fieldLws | .fieldValue =>
      m.nameStart = m.field ∧ m.field ≤ m.nameStop ∧ m.nameStop ≤ p
  | _ => True

/-- The invariant of a scan. -/
structure Scanned (b : List UInt8) (q : State) (p : Nat) (m : Marks) : Prop where
  mark_le : m.mark ≤ p
  field_le : m.field ≤ p
  holds : q.Holds b p m

/-- A transition keeps the invariant, and its tokens are well formed. -/
def Keeps (b : List UInt8) (p : Nat) (m : Marks) (q' : State)
    (as : List Action) : Prop :=
  Scanned b q' (p + 1) (acts scanAct p as m).1 ∧
    ∀ x ∈ (acts scanAct p as m).2, x.WellFormed b

/-- A transition whose tokens need only that they end where they are, to a
state that asks nothing of the registers. -/
theorem keeps_of_free {b : List UInt8} {p : Nat} {m : Marks} {q' : State}
    {as : List Action} (hm : m.mark ≤ p) (hf : m.field ≤ p)
    (has : ∀ a ∈ as, a = .mark ∨ a = .startField ∨ a = .writeField ∨
      a = .startValue ∨ a = .requestUri ∨ a = .fragment ∨ a = .requestPath ∨
      a = .xml ∨ a = .json ∨ a = .done)
    (hq : ∀ m', q'.Holds b (p + 1) m') : Keeps b p m q' as := by
  suffices h : ((acts scanAct p as m).1.mark ≤ p ∧
      (acts scanAct p as m).1.field ≤ p) ∧
      ∀ x ∈ (acts scanAct p as m).2, x.WellFormed b from
    ⟨⟨h.1.1.trans (Nat.le_succ p), h.1.2.trans (Nat.le_succ p), hq _⟩, h.2⟩
  induction as generalizing m with
  | nil => exact ⟨⟨hm, hf⟩, by simp [acts]⟩
  | cons a as ih =>
      have hstep : ((scanAct a p m).1.mark ≤ p ∧ (scanAct a p m).1.field ≤ p) ∧
          ∀ x ∈ (scanAct a p m).2, x.WellFormed b := by
        rcases has a List.mem_cons_self with
          rfl | rfl | rfl | rfl | rfl | rfl | rfl | rfl | rfl | rfl
        case inr.inr.inr.inr.inr.inr.inr.inr.inr =>
          refine ⟨⟨hm, hf⟩, ?_⟩
          simp only [scanAct]
          split_ifs <;> simp [Token.WellFormed]
        all_goals simp [scanAct, Token.WellFormed, hm, hf]
      obtain ⟨h1, h2⟩ := ih hstep.1.1 hstep.1.2
        fun a' ha' => has a' (List.mem_cons_of_mem a ha')
      refine ⟨h1, ?_⟩
      intro x hx
      rcases List.mem_append.mp hx with hx | hx
      · exact hstep.2 x hx
      · exact h2 x hx

section Rules

variable {b : List UInt8} {relaxed : Bool} {p : Nat} {m : Marks} {c : UInt8}
  {q' : State} {ent as : List Action}

theorem holds_version_zero : (State.version 0).Holds b p m :=
  ⟨Nat.zero_le 8, fun h => absurd h (Nat.lt_irrefl 0)⟩

theorem keeps_uriNext {s : PathState} (hm : m.mark ≤ p) (hf : m.field ≤ p)
    (hent : ent = [] ∨ ent = [.mark])
    (hn : uriNext relaxed s ent c = some (q', as)) : Keeps b p m q' as := by
  rcases uriNext_cases hn with
    ⟨rfl, rfl⟩ | ⟨rfl, rfl⟩ | ⟨rfl, rfl⟩ | ⟨s', rfl, rfl⟩
  · apply keeps_of_free hm hf
    · rcases hent with rfl | rfl <;> simp
    · exact fun _ => holds_version_zero
  all_goals
    apply keeps_of_free hm hf
    · rcases hent with rfl | rfl <;> simp
    · exact fun _ => trivial

theorem keeps_fragmentNext (hm : m.mark ≤ p) (hf : m.field ≤ p)
    (hent : ent = [] ∨ ent = [.mark])
    (hn : fragmentNext relaxed ent c = some (q', as)) : Keeps b p m q' as := by
  rcases fragmentNext_cases hn with ⟨rfl, rfl⟩ | ⟨rfl | rfl, rfl⟩
  · apply keeps_of_free hm hf
    · rcases hent with rfl | rfl <;> simp
    · exact fun _ => holds_version_zero
  all_goals
    apply keeps_of_free hm hf
    · rcases hent with rfl | rfl <;> simp
    · exact fun _ => trivial

/-- The start of the query is set when `ent` has run. -/
theorem keeps_queryNext (hm : m.mark ≤ p) (hf : m.field ≤ p)
    (hent : ent = [.startQuery] ∨
      ent = [] ∧ ∃ i, m.query = some i ∧ i ≤ p)
    (hn : queryNext relaxed ent c = some (q', as)) : Keeps b p m q' as := by
  have hm' := hm.trans (Nat.le_succ p)
  have hf' := hf.trans (Nat.le_succ p)
  rcases hent with rfl | ⟨rfl, i, hi, hip⟩
  · rcases queryNext_cases hn with ⟨rfl, rfl⟩ | ⟨rfl, rfl⟩ | ⟨rfl | rfl, rfl⟩
    · exact ⟨⟨hm', hf', holds_version_zero⟩,
        by simp [acts, scanAct, Token.WellFormed, hm]⟩
    · exact ⟨⟨hm', hf', trivial⟩,
        by simp [acts, scanAct, Token.WellFormed, hm]⟩
    · exact ⟨⟨hm', hf', p, rfl, Nat.le_succ p⟩, by simp [acts, scanAct]⟩
    · exact ⟨⟨hm', hf', p, rfl, Nat.le_succ p⟩, by simp [acts, scanAct]⟩
  · rcases queryNext_cases hn with ⟨rfl, rfl⟩ | ⟨rfl, rfl⟩ | ⟨rfl | rfl, rfl⟩
    · exact ⟨⟨hm', hf', holds_version_zero⟩,
        by simp [acts, scanAct, Token.WellFormed, hm, hi, hip]⟩
    · exact ⟨⟨hm', hf', trivial⟩,
        by simp [acts, scanAct, Token.WellFormed, hm, hi, hip]⟩
    · exact ⟨⟨hm', hf', i, hi, hip.trans (Nat.le_succ p)⟩, by simp [acts]⟩
    · exact ⟨⟨hm', hf', i, hi, hip.trans (Nat.le_succ p)⟩, by simp [acts]⟩

theorem keeps_nameNext (hm : m.mark ≤ p) (hf : m.field ≤ p)
    (hn : nameNext c = some (q', as)) : Keeps b p m q' as := by
  rcases nameNext_cases hn with ⟨rfl, rfl⟩ | ⟨rfl, rfl⟩
  · exact ⟨⟨hm.trans (Nat.le_succ p), hf.trans (Nat.le_succ p), rfl, hf,
      Nat.le_succ p⟩, by simp [acts, scanAct]⟩
  · exact keeps_of_free hm hf (by simp) fun _ => trivial

theorem keeps_valueNext (hm : m.mark ≤ p) (hf : m.field ≤ p)
    (hent : ent = [] ∨ ent = [.startValue])
    (hq : m.nameStart = m.field ∧ m.field ≤ m.nameStop ∧ m.nameStop ≤ p)
    (hn : valueNext ent c = some (q', as)) : Keeps b p m q' as := by
  have hm' := hm.trans (Nat.le_succ p)
  have hf' := hf.trans (Nat.le_succ p)
  have hq' := And.imp_right (And.imp_right fun h => h.trans (Nat.le_succ p)) hq
  rcases hent with rfl | rfl
  · rcases valueNext_cases hn with ⟨rfl | rfl, rfl⟩ | ⟨rfl, rfl⟩
    · exact ⟨⟨hm', hf', trivial⟩,
        by simp [acts, scanAct, Token.WellFormed, hm, hq]⟩
    · exact ⟨⟨hm', hf', trivial⟩,
        by simp [acts, scanAct, Token.WellFormed, hm, hq]⟩
    · exact ⟨⟨hm', hf', hq'⟩, by simp [acts]⟩
  · rcases valueNext_cases hn with ⟨rfl | rfl, rfl⟩ | ⟨rfl, rfl⟩
    · exact ⟨⟨Nat.le_succ p, hf', trivial⟩,
        by simp [acts, scanAct, Token.WellFormed, hq]⟩
    · exact ⟨⟨Nat.le_succ p, hf', trivial⟩,
        by simp [acts, scanAct, Token.WellFormed, hq]⟩
    · exact ⟨⟨Nat.le_succ p, hf', hq'⟩, by simp [acts, scanAct]⟩

theorem keeps_versionNext {n : Nat} (hm : m.mark ≤ p) (hf : m.field ≤ p)
    (hc : b[p]? = some c) (hq : (State.version n).Holds b p m)
    (hn : versionNext n c = some (q', as)) : Keeps b p m q' as := by
  have hm' := hm.trans (Nat.le_succ p)
  have hf' := hf.trans (Nat.le_succ p)
  obtain ⟨hn8, hpre⟩ := hq
  rcases versionNext_cases hn with
    ⟨hn7, hvc, rfl, rfl⟩ | ⟨rfl, hvc, rfl, rfl⟩ | ⟨hn7, hq', rfl⟩
  · -- one more byte of the fixed text
    by_cases h0 : n = 0
    · subst h0
      refine ⟨⟨Nat.le_succ p, hf', by omega, fun _ => ⟨rfl, ?_⟩⟩,
        by simp [acts, scanAct]⟩
      have : some (ch 'H') = some c := hvc
      rw [← Option.some.inj this] at hc
      show VersionPrefix 1 (slice b p (p + 1))
      rw [slice_succ (Nat.le_refl p) hc, slice_self]
      rfl
    · obtain ⟨hmn, hv⟩ := hpre (by omega)
      rw [if_neg h0]
      refine ⟨⟨hm', hf', by omega, fun _ => ⟨by simp [acts]; omega, ?_⟩⟩,
        by simp [acts]⟩
      show VersionPrefix (n + 1) (slice b m.mark (p + 1))
      have h7 : n + 1 ≤ 7 := hn7
      rw [VersionPrefix, if_pos (by omega)] at hv
      rw [VersionPrefix, if_pos h7, slice_succ hm hc, hv, List.take_add_one, hvc]
      rfl
  · obtain ⟨hmn, hv⟩ := hpre (by omega)
    refine ⟨⟨hm', hf', Nat.le_refl 8, fun _ => ⟨by simp [acts]; omega, ?_⟩⟩,
      by simp [acts]⟩
    show VersionPrefix 8 (slice b m.mark (p + 1))
    have hv7 : slice b m.mark p = versionText := hv
    rw [slice_succ hm hc, hv7]
    rcases hvc with rfl | rfl
    · exact Or.inl rfl
    · exact Or.inr rfl
  · obtain rfl : n = 8 := by omega
    obtain ⟨hmn, hv⟩ := hpre (by omega)
    have hwf : (Token.element .httpVersion m.mark p).WellFormed b :=
      ⟨hmn.symm, hv⟩
    rcases hq' with rfl | rfl
    · exact ⟨⟨hm', hf', trivial⟩, by simpa [acts, scanAct] using hwf⟩
    · exact ⟨⟨hm', hf', trivial⟩, by simpa [acts, scanAct] using hwf⟩

theorem keeps_start (hm : m.mark ≤ p) (hf : m.field ≤ p) (hp : p = 0)
    (hc : b[p]? = some c) (hn : State.next relaxed .start c = some (q', as)) :
    Keeps b p m q' as := by
  simp only [State.next] at hn
  split_ifs at hn with hc1
  · cases hn
    subst hp
    refine ⟨⟨Nat.zero_le 1, hf.trans (Nat.le_succ 0), rfl, ?_⟩, by simp [acts, scanAct]⟩
    rw [slice_succ (Nat.le_refl 0) hc, slice_self]
    simpa [methodChar] using hc1
  · cases hn
    exact keeps_of_free hm hf (by simp) fun _ => trivial
  · cases hn
    exact keeps_of_free hm hf (by simp) fun _ => trivial

theorem keeps_method {n : Nat} (hm : m.mark ≤ p) (hf : m.field ≤ p) (hm0 : m.mark = 0)
    (hall : (slice b 0 p).all methodChar) (hc : b[p]? = some c)
    (hn : State.next relaxed (.method n) c = some (q', as)) : Keeps b p m q' as := by
  have hm' := hm.trans (Nat.le_succ p)
  have hf' := hf.trans (Nat.le_succ p)
  simp only [State.next] at hn
  split_ifs at hn with hc1 hc2
  · cases hn
    have hwf : (Token.element .requestMethod m.mark p).WellFormed b := ⟨hm0, hall, hc1 ▸ hc⟩
    exact ⟨⟨hm', hf', trivial⟩, by simpa [acts, scanAct] using hwf⟩
  · cases hn
    refine ⟨⟨hm', hf', hm0, ?_⟩, by simp [acts]⟩
    rw [slice_succ (Nat.zero_le p) hc, List.all_append, hall]
    simpa [methodChar] using hc2.1

/-- A state that asks for the start of the query only. -/
theorem keeps_queryPct (hm : m.mark ≤ p) (hf : m.field ≤ p)
    (hq : ∃ i, m.query = some i ∧ i ≤ p)
    (hq' : ∀ m' : Marks, (∃ i, m'.query = some i ∧ i ≤ p + 1) → q'.Holds b (p + 1) m') :
    Keeps b p m q' [] := by
  obtain ⟨i, hi, hip⟩ := hq
  exact ⟨⟨hm.trans (Nat.le_succ p), hf.trans (Nat.le_succ p),
    hq' _ ⟨i, hi, hip.trans (Nat.le_succ p)⟩⟩, by simp [acts]⟩

end Rules

/-- **Every transition keeps the invariant**, and makes only well-formed
tokens. -/
theorem next_keeps {b : List UInt8} {relaxed : Bool} {q : State} {p : Nat}
    {m : Marks} {c : UInt8} {q' : State} {as : List Action}
    (h : Scanned b q p m) (hc : b[p]? = some c)
    (hn : State.next relaxed q c = some (q', as)) : Keeps b p m q' as := by
  obtain ⟨hm, hf, hq⟩ := h
  have hf' := hf.trans (Nat.le_succ p)
  cases q with
  | start => exact keeps_start hm hf hq hc hn
  | method n => exact keeps_method hm hf hq.1 hq.2 hc hn
  | uri =>
      simp only [State.next] at hn
      split_ifs at hn
      · cases hn
        exact keeps_of_free hm hf (by simp) fun _ => trivial
      · exact keeps_uriNext hm hf (.inr rfl) hn
  | scheme =>
      simp only [State.next] at hn
      split_ifs at hn
      · cases hn
        exact keeps_of_free hm hf (by simp) fun _ => trivial
      · cases hn
        exact keeps_of_free hm hf (by simp) fun _ => trivial
      · exact keeps_uriNext hm hf (.inl rfl) hn
  | path s =>
      cases s
      case hierPart => exact keeps_uriNext hm hf (.inr rfl) hn
      all_goals exact keeps_uriNext hm hf (.inl rfl) hn
  | queryStart => exact keeps_queryNext hm hf (.inl rfl) hn
  | query => exact keeps_queryNext hm hf (.inr ⟨rfl, hq⟩) hn
  | queryPct =>
      simp only [State.next] at hn
      split_ifs at hn
      cases hn
      exact keeps_queryPct hm hf hq fun _ h => h
  | queryPctDigit =>
      simp only [State.next] at hn
      split_ifs at hn
      cases hn
      exact keeps_queryPct hm hf hq fun _ h => h
  | fragmentStart => exact keeps_fragmentNext hm hf (.inr rfl) hn
  | fragment => exact keeps_fragmentNext hm hf (.inl rfl) hn
  | version n => exact keeps_versionNext hm hf hc hq hn
  | lineCr =>
      simp only [State.next] at hn
      split_ifs at hn
      · cases hn
        exact keeps_of_free hm hf (by simp) fun _ => trivial
      · exact keeps_nameNext hm hf hn
  | fieldName => exact keeps_nameNext hm hf hn
  | finished => exact keeps_nameNext hm hf hn
  | fieldLws =>
      simp only [State.next] at hn
      split_ifs at hn
      · cases hn
        exact ⟨⟨Nat.le_succ p, hf', hq.1, hq.2.1, hq.2.2.trans (Nat.le_succ p)⟩,
          by simp [acts, scanAct]⟩
      · exact keeps_valueNext hm hf (.inr rfl) hq hn
  | fieldValue => exact keeps_valueNext hm hf (.inl rfl) hq hn
  | jsonPath s =>
      simp only [State.next] at hn
      split_ifs at hn
      · cases hn
        exact keeps_of_free hm hf (by simp) fun _ => trivial
      · obtain ⟨s', -, hs⟩ := Option.map_eq_some_iff.mp hn
        cases hs
        exact keeps_of_free hm hf (by simp) fun _ => trivial
  | socketFinished => cases hn
  | _ =>
      simp only [State.next] at hn
      split_ifs at hn <;> cases hn <;>
        exact keeps_of_free hm hf (by simp) fun _ => trivial

/-- **The tokens of a scan are well formed.** -/
theorem scan_wellFormed {b : List UInt8} (relaxed : Bool) :
    ∀ t ∈ (scan relaxed b).calls, t.WellFormed b := by
  have h : Scanned b .start 0 {} := ⟨Nat.le_refl 0, Nat.le_refl 0, rfl⟩
  exact Machine.exec_invariant (Scanned b)
    (fun h hc hn => next_keeps h hc hn) h rfl

end Hps.Http.Request
