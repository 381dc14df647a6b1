import Hps.Lib.Numerals
import Hps.Log.Model

/-!
# Log — formatting events

What the items of a formatter write for an event, and the output of a whole
pattern. `outcome_nil` and its siblings give that output from the front of the
pattern on, without the vector of `init` and the text it has in hand.
-/

namespace Hps.Log

open Hps.Lib.Numerals

/-! ## Events -/

/-- `LogEvent`, with all its fields and the name of its logger. -/
structure EventData where
  file : Text
  line : Int32
  elapse : UInt32
  threadId : UInt32
  fiberId : UInt32
  time : UInt64
  threadName : Text
  ss : Text
  loggerName : Text

/-- An `int32_t` in a stream. -/
def decimal (i : Int) : Text :=
  if i < 0 then text "-" ++ numeral 10 i.natAbs else numeral 10 i.natAbs

/-! ## Time -/

/-- `strftime` for the local time, in the C locale. -/
structure Strftime where
  /-- What the conversion at the front of a format, behind its `%`, becomes at
  a time, and the rest of the format. -/
  conversion : UInt64 → Text → Text × Text
  rest : ∀ time t, (conversion time t).2 <:+ t
  noNul : ∀ time t, 0 ∉ (conversion time t).1
  percent : ∀ time t, conversion time (37 :: t) = ([37], t)
  /-- The letters of the directives and of the year; some of them are no
  conversion and stay as they are, with the `%`. -/
  starts : ∀ c ∈ text "mprctndflTFNY", ∀ t, ∃ d w, (conversion 0 (c :: t)).1 = d :: w ∧
    d ≠ 100 ∧ d ≠ 123 ∧ d ≠ 125

/-- The text of a format. -/
def Strftime.expand (lib : Strftime) (time : UInt64) : Text → Text
  | [] => []
  | c :: t =>
      if c = 37 then (lib.conversion time t).1 ++ lib.expand time (lib.conversion time t).2
      else c :: lib.expand time t
  termination_by t => t.length
  decreasing_by
    · exact Nat.lt_succ_of_le (lib.rest time t).length_le
    · exact Nat.lt_succ_self _

/-- What `DateTimeFormatItem` writes. A text that does not fit into `buf` leaves
something indeterminate there. -/
def dateTime (lib : Strftime) (indeterminate : Text → Text) (time : UInt64) (format : Text) :
    Text :=
  let fmt := if format = [] then text "%Y-%m-%d %H:%M:%S" else format
  let buf := lib.expand time (cString fmt)
  if buf.length < 64 then buf else indeterminate fmt

/-! ## Items -/

section Items

variable (lib : Strftime) (indeterminate : Text → Text) (level : Level) (event : EventData)

/-- `FormatItem::format` -/
def FormatItem.format : FormatItem → Text
  | .string s => s
  | .directive .message _ => event.ss
  | .directive .level _ => level.toString
  | .directive .elapse _ => numeral 10 event.elapse.toNat
  | .directive .name _ => event.loggerName
  | .directive .threadId _ => numeral 10 event.threadId.toNat
  | .directive .newLine _ => text "\n"
  | .directive .dateTime fmt => dateTime lib indeterminate event.time fmt
  | .directive .filename _ => cString event.file
  | .directive .line _ => decimal event.line.toInt
  | .directive .tab _ => text "\t"
  | .directive .fiberId _ => numeral 10 event.fiberId.toNat
  | .directive .threadName _ => event.threadName

/-- `LogFormatter::format` -/
def LogFormatter.format (f : LogFormatter) : Text :=
  f.items.flatMap (FormatItem.format lib indeterminate level event)

end Items

/-! ## The output of a pattern -/

section Outcome

-- what an item writes
variable {write : FormatItem → Text}

/-- A directive that has no class. -/
def unknown : Text × Text × Bool → Bool
  | (str, _, directive) => directive && (formatItems.find? fun x => x.1 = str).isNone

/-- The output of the entries of `vec`, if there is no error. -/
def vecOutcome (write : FormatItem → Text) (r : List (Text × Text × Bool) × Bool) : Option Text :=
  if r.2 || r.1.any unknown then none else some ((r.1.map toItem).flatMap write)

/-- The output of a pattern, if there is no error. -/
def outcome (write : FormatItem → Text) (t : Text) : Option Text :=
  vecOutcome write (parsePattern (t.length + 1) [] t)

theorem outcome_eq_some {t out : Text} : outcome write t = some out ↔
    (LogFormatter.new t).error = false ∧ (LogFormatter.new t).items.flatMap write = out := by
  have hif : ∀ (b : Bool) (x : Text),
      (if b then none else some x) = some out ↔ b = false ∧ x = out := by
    intro b x
    cases b <;> simp
  exact hif _ _

theorem findClose_length {fmt t : Text} {r : Text × Text} (h : findClose fmt t = some r) :
    r.2.length ≤ t.length := by
  induction t generalizing fmt with
  | nil => cases h
  | cons c t ih =>
      rw [findClose] at h
      split at h
      · obtain rfl := Option.some.inj h
        exact Nat.le_succ t.length
      · exact Nat.le_succ_of_le (ih h)

theorem findDirective_length {str t : Text} {r : Text × Text × Text}
    (h : findDirective str t = some r) : r.2.2.length ≤ t.length := by
  induction t generalizing str with
  | nil =>
      obtain rfl := Option.some.inj h
      exact Nat.le_refl 0
  | cons c t ih =>
      rw [findDirective] at h
      split at h
      · obtain ⟨x, hx, rfl⟩ := Option.map_eq_some_iff.mp h
        exact Nat.le_succ_of_le (findClose_length hx)
      · split at h
        · obtain rfl := Option.some.inj h
          exact Nat.le_refl _
        · exact Nat.le_succ_of_le (ih h)

/-- The class of a directive's name. -/
def classOf (str : Text) : Option Directive :=
  (formatItems.find? fun x => x.1 = str).map Prod.snd

/-- A directive writes what its class does, if it has one. -/
theorem vecOutcome_directive (str fmt : Text) (r : List (Text × Text × Bool) × Bool) :
    vecOutcome write ((str, fmt, true) :: r.1, r.2) =
      (classOf str).bind fun c => (vecOutcome write r).map (write (.directive c fmt) ++ ·) := by
  rw [vecOutcome, vecOutcome, classOf, List.any_cons, unknown, List.map_cons, List.flatMap_cons,
    toItem]
  cases formatItems.find? fun x => x.1 = str with
  | none => simp
  | some x =>
      simp only [Option.isNone_some, Bool.and_false, Bool.false_or, Option.map_some,
        Option.bind_some]
      split <;> rfl

/-- The output of a pattern from that of what is behind its front: a
character, a `%` with another one behind it, or a directive. -/
def outcomeStep (write : FormatItem → Text) : Text → Option Text
  | [] => some []
  | c :: cs =>
      if c ≠ 37 ∨ cs.head? = some 37 then (outcome write cs).map (c :: ·)
      else
        (findDirective [] cs).bind fun (str, fmt, rest) => (classOf str).bind fun k =>
          (outcome write rest).map (write (.directive k fmt) ++ ·)

variable (hstring : ∀ s, write (.string s) = s)
include hstring

/-- The text in hand comes first. -/
theorem vecOutcome_flush (nstr : Text) (r : List (Text × Text × Bool) × Bool) :
    vecOutcome write ((if nstr = [] then [] else [(nstr, [], false)]) ++ r.1, r.2) =
      (vecOutcome write r).map (nstr ++ ·) := by
  by_cases h : nstr = []
  · subst h
    rw [if_pos rfl, List.nil_append]
    simp
  · rw [if_neg h, List.singleton_append, vecOutcome, vecOutcome, List.any_cons, unknown,
      List.map_cons, List.flatMap_cons, toItem, hstring, Bool.false_and, Bool.false_or]
    split <;> rfl

/-- What the turns of the loop make of a pattern, from any text in hand. -/
theorem parsePattern_outcome {t : Text} {fuel : Nat} (hfuel : t.length < fuel) (nstr : Text) :
    vecOutcome write (parsePattern fuel nstr t) = (outcomeStep write t).map (nstr ++ ·) := by
  induction hlen : t.length using Nat.strongRecOn generalizing t fuel nstr with
  | ind n ih =>
      obtain ⟨fuel, rfl⟩ := Nat.exists_eq_succ_of_ne_zero (Nat.ne_zero_of_lt hfuel)
      -- behind the front, the output is that of the rest
      have hrest : ∀ {t' : Text} (nstr' : Text), t'.length < n → t'.length < fuel →
          vecOutcome write (parsePattern fuel nstr' t') = (outcome write t').map (nstr' ++ ·) := by
        intro t' nstr' ht' hf
        have hout : outcome write t' = outcomeStep write t' := by
          rw [outcome, ih _ ht' (Nat.lt_succ_self _) [] rfl]
          simp
        rw [hout]
        exact ih _ ht' hf nstr' rfl
      cases t with
      | nil =>
          have hflush := vecOutcome_flush hstring nstr ([], false)
          rw [List.append_nil] at hflush
          exact hflush
      | cons c cs =>
          have hcs : cs.length < n := by
            rw [← hlen]
            exact Nat.lt_succ_self _
          have hcf : cs.length < fuel := Nat.lt_of_succ_lt_succ hfuel
          have hchar : vecOutcome write (parsePattern fuel (nstr ++ [c]) cs) =
              ((outcome write cs).map (c :: ·)).map (nstr ++ ·) := by
            rw [hrest _ hcs hcf, Option.map_map]
            simp [Function.comp_def]
          rw [parsePattern, outcomeStep]
          by_cases hc : c ≠ 37
          · rw [if_pos hc, if_pos (.inl hc), hchar]
          · obtain rfl : c = 37 := not_not.mp hc
            by_cases hhead : cs.head? = some 37
            · rw [if_neg hc, if_pos hhead, if_pos (.inr hhead), hchar]
            · rw [if_neg hc, if_neg hhead, if_neg (not_or.mpr ⟨hc, hhead⟩)]
              cases hfind : findDirective [] cs with
              | none =>
                  rfl
              | some r =>
                  obtain ⟨str, fmt, rest⟩ := r
                  have hlt : rest.length ≤ cs.length := findDirective_length hfind
                  have hvec := hrest [] (Nat.lt_of_le_of_lt hlt hcs) (Nat.lt_of_le_of_lt hlt hcf)
                  have hflush := vecOutcome_flush hstring nstr
                    ((str, fmt, true) :: (parsePattern fuel [] rest).1,
                      (parsePattern fuel [] rest).2)
                  refine hflush.trans ?_
                  rw [vecOutcome_directive, hvec]
                  simp

theorem outcome_step (t : Text) : outcome write t = outcomeStep write t := by
  rw [outcome, parsePattern_outcome hstring (Nat.lt_succ_self _)]
  simp

omit hstring in
theorem outcome_nil : outcome write [] = some [] := rfl

theorem outcome_char {c : UInt8} (hc : c ≠ 37) (cs : Text) :
    outcome write (c :: cs) = (outcome write cs).map (c :: ·) := by
  rw [outcome_step hstring, outcomeStep, if_pos (.inl hc)]

/-- Of two `%`, the first is written and the second begins something. -/
theorem outcome_percent (cs : Text) :
    outcome write (37 :: 37 :: cs) = (outcome write (37 :: cs)).map (37 :: ·) := by
  rw [outcome_step hstring, outcomeStep, if_pos (.inr rfl)]

theorem outcome_directive {cs : Text} (h : cs.head? ≠ some 37) :
    outcome write (37 :: cs) =
      (findDirective [] cs).bind fun (str, fmt, rest) => (classOf str).bind fun k =>
        (outcome write rest).map (write (.directive k fmt) ++ ·) := by
  rw [outcome_step hstring, outcomeStep, if_neg (not_or.mpr ⟨not_not.mpr rfl, h⟩)]

end Outcome

end Hps.Log
