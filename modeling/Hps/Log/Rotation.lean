import Hps.Log.Model

/-!
# Log — files that are reopened

`FileLogAppender` opens its file anew when an event comes three seconds or
more after the last time it did. It opens it as `std::ofstream` does by
default, which empties the file: `log_kept_iff`.
-/

namespace Hps.Log

/-- An event, as its time and what the formatter is given besides. -/
structure LogEvent (μ : Type) where
  time : UInt64
  message : μ

/-- `FileLogAppender` and the file it writes. `format` is what
`m_formatter->format` puts into the stream. -/
structure FileLogAppender (μ : Type) where
  level : Level
  format : Level → LogEvent μ → Text
  file : Text
  lastTime : UInt64

variable {μ : Type}

namespace FileLogAppender

/-- `reopen()`: a stream that is opened for writing empties the file. -/
def reopen (a : FileLogAppender μ) : FileLogAppender μ := { a with file := [] }

/-- The constructor, on a file that may be there already. -/
def new (level : Level) (format : Level → LogEvent μ → Text) (file : Text) :
    FileLogAppender μ :=
  reopen { level, format, file, lastTime := 0 }

def log (a : FileLogAppender μ) (level : Level) (event : LogEvent μ) :
    FileLogAppender μ :=
  if a.level.value ≤ level.value then
    let now := event.time
    let a := if a.lastTime + 3 ≤ now then { a.reopen with lastTime := now } else a
    { a with file := a.file ++ a.format level event }
  else a

/-- The events in the order in which they are logged. -/
def logAll (a : FileLogAppender μ) (events : List (Level × LogEvent μ)) :
    FileLogAppender μ :=
  events.foldl (fun a e => a.log e.1 e.2) a

end FileLogAppender

/-! ## What the file has to hold -/

/-- The events whose level is at least `m_level`. -/
def logged (level : Level) (events : List (Level × LogEvent μ)) :
    List (Level × LogEvent μ) :=
  events.filter fun e => level.value ≤ e.1.value

/-- The formatted texts of the events, in order. -/
def texts (format : Level → LogEvent μ → Text) (events : List (Level × LogEvent μ)) :
    Text :=
  events.flatMap fun e => format e.1 e.2

/-- When the file was opened last: an event three seconds or more after the
last time opens it again. -/
def lastOpened (last : UInt64) (events : List (Level × LogEvent μ)) : UInt64 :=
  events.foldl (fun last e => if last + 3 ≤ e.2.time then e.2.time else last) last

/-- No event three seconds or more after the file was opened last comes
behind an event with a text. -/
def NoneReopens (format : Level → LogEvent μ → Text) (last : UInt64)
    (events : List (Level × LogEvent μ)) : Prop :=
  ∀ before e after, events = before ++ e :: after →
    lastOpened last before + 3 ≤ e.2.time → texts format before = []

/-! ## Runs -/

section Run

variable {a : FileLogAppender μ} {e : Level × LogEvent μ}
  {events : List (Level × LogEvent μ)}

/-- The event is not below the appender's level. -/
abbrev Passes (a : FileLogAppender μ) (e : Level × LogEvent μ) : Prop :=
  a.level.value ≤ e.1.value

theorem log_low (h : ¬Passes a e) : a.log e.1 e.2 = a := if_neg h

theorem log_stays (h : Passes a e) (ht : ¬a.lastTime + 3 ≤ e.2.time) :
    a.log e.1 e.2 = { a with file := a.file ++ a.format e.1 e.2 } := by
  rw [FileLogAppender.log, if_pos h]
  simp only [if_neg ht]

theorem log_reopens (h : Passes a e) (ht : a.lastTime + 3 ≤ e.2.time) :
    a.log e.1 e.2 = { a with file := a.format e.1 e.2, lastTime := e.2.time } := by
  rw [FileLogAppender.log, if_pos h]
  simp only [if_pos ht]
  rfl

theorem log_level : (a.log e.1 e.2).level = a.level := by
  by_cases h : Passes a e
  · by_cases ht : a.lastTime + 3 ≤ e.2.time
    · rw [log_reopens h ht]
    · rw [log_stays h ht]
  · rw [log_low h]

theorem log_format : (a.log e.1 e.2).format = a.format := by
  by_cases h : Passes a e
  · by_cases ht : a.lastTime + 3 ≤ e.2.time
    · rw [log_reopens h ht]
    · rw [log_stays h ht]
  · rw [log_low h]

theorem logAll_cons : a.logAll (e :: events) = (a.log e.1 e.2).logAll events := rfl

theorem logAll_append (before after : List (Level × LogEvent μ)) :
    a.logAll (before ++ after) = (a.logAll before).logAll after :=
  List.foldl_append

/-- Only the logged events matter. -/
theorem logAll_logged (events : List (Level × LogEvent μ)) :
    a.logAll events = a.logAll (logged a.level events) := by
  induction events generalizing a with
  | nil => rfl
  | cons e events ih =>
      rw [logAll_cons, ih, log_level]
      by_cases h : Passes a e
      · rw [logged, logged, List.filter_cons_of_pos (by simpa [Passes] using h)]
        rfl
      · rw [log_low h, logged, logged,
          List.filter_cons_of_neg (by simpa [Passes] using h)]

theorem logAll_format : (a.logAll events).format = a.format := by
  induction events generalizing a with
  | nil => rfl
  | cons e events ih => rw [logAll_cons, ih, log_format]

theorem logAll_level : (a.logAll events).level = a.level := by
  induction events generalizing a with
  | nil => rfl
  | cons e events ih => rw [logAll_cons, ih, log_level]

/-- What passes an appender still passes it behind an event. -/
theorem passes_log (h : ∀ x ∈ e :: events, Passes a x) :
    ∀ x ∈ events, Passes (a.log e.1 e.2) x := by
  intro x hx
  rw [Passes, log_level]
  exact h x (List.mem_cons_of_mem e hx)

theorem logAll_lastTime (h : ∀ e ∈ events, Passes a e) :
    (a.logAll events).lastTime = lastOpened a.lastTime events := by
  induction events generalizing a with
  | nil => rfl
  | cons e events ih =>
      rw [logAll_cons, ih (passes_log h), lastOpened, lastOpened, List.foldl_cons]
      by_cases ht : a.lastTime + 3 ≤ e.2.time
      · rw [log_reopens (h e List.mem_cons_self) ht, if_pos ht]
      · rw [log_stays (h e List.mem_cons_self) ht, if_neg ht]

/-- The file never holds more than has been written to it. -/
theorem logAll_length_le (h : ∀ e ∈ events, Passes a e) :
    (a.logAll events).file.length ≤
      a.file.length + (texts a.format events).length := by
  induction events generalizing a with
  | nil => exact Nat.le_add_right _ _
  | cons e events ih =>
      have hle := ih (passes_log h)
      have htexts : (texts a.format (e :: events)).length =
          (a.format e.1 e.2).length + (texts a.format events).length := by
        rw [texts, texts, List.flatMap_cons, List.length_append]
      rw [logAll_cons, htexts]
      by_cases ht : a.lastTime + 3 ≤ e.2.time
      · rw [log_reopens (h e List.mem_cons_self) ht] at hle ⊢
        simp only at hle
        omega
      · rw [log_stays (h e List.mem_cons_self) ht] at hle ⊢
        simp only [List.length_append] at hle
        omega

/-- A file that is not reopened behind a text holds every text. -/
theorem logAll_keeps (h : ∀ e ∈ events, Passes a e)
    (hkeep : ∀ before e after, events = before ++ e :: after →
      lastOpened a.lastTime before + 3 ≤ e.2.time →
      a.file ++ texts a.format before = []) :
    (a.logAll events).file = a.file ++ texts a.format events := by
  induction events generalizing a with
  | nil => exact (List.append_nil _).symm
  | cons e events ih =>
      have he := h e List.mem_cons_self
      have hcons : ∀ es, texts a.format (e :: es) =
          a.format e.1 e.2 ++ texts a.format es := fun _ => List.flatMap_cons
      have hopened : ∀ es, lastOpened (a.log e.1 e.2).lastTime es =
          lastOpened a.lastTime (e :: es) := by
        intro es
        rw [lastOpened, lastOpened, List.foldl_cons]
        by_cases ht : a.lastTime + 3 ≤ e.2.time
        · rw [log_reopens he ht, if_pos ht]
        · rw [log_stays he ht, if_neg ht]
      -- either way the file holds what is written so far
      have hfile : (a.log e.1 e.2).file = a.file ++ a.format e.1 e.2 := by
        by_cases ht : a.lastTime + 3 ≤ e.2.time
        · have hnil : a.file = [] := by
            simpa [texts] using hkeep [] e events rfl ht
          rw [log_reopens he ht, hnil, List.nil_append]
        · rw [log_stays he ht]
      rw [logAll_cons, ih (passes_log h) ?_, log_format, hfile, hcons, List.append_assoc]
      intro before x after hsplit ht
      rw [hopened] at ht
      have := hkeep (e :: before) x after (by rw [hsplit]; rfl) ht
      rwa [log_format, hfile, List.append_assoc, ← hcons]

/-- A file that is reopened behind a text has lost it. -/
theorem logAll_loses {before after : List (Level × LogEvent μ)}
    (h : ∀ x ∈ before ++ e :: after, Passes a x)
    (ht : lastOpened a.lastTime before + 3 ≤ e.2.time)
    (hne : texts a.format before ≠ []) :
    (a.logAll (before ++ e :: after)).file.length <
      (texts a.format (before ++ e :: after)).length := by
  have hbefore : ∀ x ∈ before, Passes a x := fun x hx =>
    h x (List.mem_append_left _ hx)
  have hpass : ∀ x ∈ e :: after, Passes (a.logAll before) x := by
    intro x hx
    rw [Passes, logAll_level]
    exact h x (List.mem_append_right _ hx)
  have hreopen := log_reopens (hpass e List.mem_cons_self)
    (show (a.logAll before).lastTime + 3 ≤ e.2.time by
      rwa [logAll_lastTime hbefore])
  have hafter : ∀ x ∈ after, Passes ((a.logAll before).log e.1 e.2) x := by
    intro x hx
    rw [Passes, log_level]
    exact hpass x (List.mem_cons_of_mem e hx)
  have hle := logAll_length_le hafter
  simp only [hreopen, logAll_format] at hle
  have hpos := List.length_pos_of_ne_nil hne
  have hsum : (texts a.format (before ++ e :: after)).length =
      (texts a.format before).length + ((a.format e.1 e.2).length +
        (texts a.format after).length) := by
    simp only [texts, List.flatMap_append, List.flatMap_cons, List.length_append]
  rw [logAll_append, logAll_cons, hreopen, logAll_format, hsum]
  omega

end Run

/-- **The file holds every text exactly if no event reopens it behind one.** -/
theorem log_kept_iff (level : Level) (format : Level → LogEvent μ → Text)
    (file : Text) (events : List (Level × LogEvent μ)) :
    texts format (logged level events) <:+:
        ((FileLogAppender.new level format file).logAll events).file ↔
      NoneReopens format 0 (logged level events) := by
  have hpass : ∀ e ∈ logged level events,
      Passes (FileLogAppender.new level format file) e := by
    intro e he
    exact of_decide_eq_true (List.mem_filter.mp he).2
  rw [logAll_logged]
  constructor
  · intro hinfix before e after hsplit ht
    by_contra hne
    have hlt := logAll_loses (a := FileLogAppender.new level format file)
      (by rwa [← hsplit]) ht hne
    rw [← hsplit] at hlt
    exact absurd hinfix.length_le (Nat.not_le.mpr hlt)
  · intro hkeep
    have heq := logAll_keeps hpass fun before e after hsplit ht =>
      hkeep before e after hsplit ht
    exact ⟨[], [], by rw [List.append_nil, List.nil_append]; exact heq.symm⟩

/-- Two lines, three seconds apart. -/
def twoLines : List (Level × LogEvent Text) :=
  [(.INFO, ⟨1700000000, text "a"⟩), (.INFO, ⟨1700000003, text "b"⟩)]

/-- The second line empties the file. -/
theorem twoLines_lost : ¬∀ (level : Level) (format : Level → LogEvent Text → Text)
    (file : Text) (events : List (Level × LogEvent Text)),
    (events.map fun e => e.2.time).Pairwise (· ≤ ·) →
    texts format (logged level events) <:+:
      ((FileLogAppender.new level format file).logAll events).file := by
  intro h
  have hinfix := h .DEBUG (fun _ e => e.message) [] twoLines (by decide)
  have hlen := hinfix.length_le
  revert hlen
  decide

end Hps.Log
