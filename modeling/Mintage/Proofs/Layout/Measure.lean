import Mintage.Proofs.Layout.Room

/-! What is measured of a line is its text up to the first place where it ends, however the
documents on it are nested and whatever stands behind it. -/
namespace Mintage.Layout

/-- What is met along a line: a text, or a place where the line ends. -/
inductive Span where
  | text (s : String)
  | lineEnd
  deriving DecidableEq, Repr

/-- The text of the line that is met first. -/
def lineText : List Span → String
  | [] => ""
  | .text s :: spans => s ++ lineText spans
  | .lineEnd :: _ => ""

/-- A line that is flat is a space or nothing, unless it is a hard one. -/
def Line.spans (mode : Mode) (kind : Line) : List Span :=
  match mode, kind with
  | .flat, .soft => []
  | .flat, .space => [.text " "]
  | _, _ => [.lineEnd]

mutual

/-- A document laid out in a mode. The groups in it that are marked as broken are broken, the others
are laid out as what surrounds them. -/
def Doc.spans (mode : Mode) : Doc → List Span
  | .nil => []
  | .text s => [.text s]
  | .line kind => kind.spans mode
  | .concat parts => Doc.allSpans mode parts
  | .indent inner => inner.spans mode
  | .group broken inner => inner.spans (mode.inside broken)
  | .ifBreak broken flat =>
    match mode with
    | .broken => broken.spans mode
    | .flat => flat.spans mode

def Doc.allSpans (mode : Mode) : List Doc → List Span
  | [] => []
  | part :: parts => part.spans mode ++ Doc.allSpans mode parts

end

theorem Doc.allSpans_eq_flatMap (mode : Mode) (parts : List Doc) :
    Doc.allSpans mode parts = parts.flatMap (Doc.spans mode) := by
  induction parts with
  | nil => rfl
  | cons part parts ih => rw [Doc.allSpans, List.flatMap_cons, ih]

def Frame.spans (frame : Frame) : List Span := Doc.allSpans frame.mode frame.docs

/-- A document on one line, and the frames behind it, each in its own mode. -/
def lineSpans (next : Doc) (rest : List Frame) : List Span :=
  next.spans .flat ++ rest.flatMap Frame.spans

/-- What stands behind the end of a line is not on it. -/
theorem lineText_append_lineEnd (front back : List Span) :
    lineText (front ++ .lineEnd :: back) = lineText front := by
  induction front with
  | nil => rfl
  | cons span front ih =>
    cases span with
    | text s => rw [List.cons_append, lineText, ih, lineText]
    | lineEnd => rfl

/-- The room left on the line after what is met. -/
def measureSpans : List Span → Nat → Room
  | [], columns => .left columns
  | .text s :: spans, columns => (Room.take s.length columns).andThen (measureSpans spans)
  | .lineEnd :: _, _ => .ended

/-- Two stretches are measured one after the other, the second in the room that the first leaves. -/
theorem measureSpans_append (front back : List Span) (columns : Nat) :
    measureSpans (front ++ back) columns =
      (measureSpans front columns).andThen (measureSpans back) := by
  induction front generalizing columns with
  | nil => rfl
  | cons span front ih =>
    cases span with
    | text s =>
      have same : measureSpans (front ++ back) = fun left =>
          (measureSpans front left).andThen (measureSpans back) := funext ih
      rw [List.cons_append, measureSpans, same, measureSpans, Room.andThen_assoc]
    | lineEnd => rfl

/-- A line has room if its text is not longer than the columns, which is compared once for the whole
line. -/
theorem measureSpans_ne_exceeded_iff (spans : List Span) (columns : Nat) :
    measureSpans spans columns ≠ .exceeded ↔ (lineText spans).length ≤ columns := by
  induction spans generalizing columns with
  | nil => simp [measureSpans, lineText]
  | cons span spans ih =>
    cases span with
    | text s =>
      rw [measureSpans, Room.take_andThen, ih, lineText, String.length_append]
      omega
    | lineEnd => simp [measureSpans, lineText]

mutual

theorem measure_eq_measureSpans : ∀ (mode : Mode) (doc : Doc) (columns : Nat),
    doc.measure mode columns = measureSpans (doc.spans mode) columns
  | _, .nil, _ => rfl
  | _, .text s, columns => by
    cases taken : Room.take s.length columns <;> simp [Doc.measure, Doc.spans, measureSpans, taken]
  | mode, .line kind, columns => by
    cases mode with
    | broken => rfl
    | flat =>
      cases kind with
      | soft => rfl
      | space =>
        have blank : " ".length = 1 := rfl
        rw [Doc.measure, Doc.spans, Line.measure, Line.spans, measureSpans, blank]
        cases Room.take 1 columns <;> rfl
      | hard => rfl
  | mode, .concat parts, columns => measureAll_eq_measureSpans mode parts columns
  | mode, .indent inner, columns => measure_eq_measureSpans mode inner columns
  | mode, .group broken inner, columns =>
    measure_eq_measureSpans (mode.inside broken) inner columns
  | .broken, .ifBreak broken _, columns => measure_eq_measureSpans .broken broken columns
  | .flat, .ifBreak _ flat, columns => measure_eq_measureSpans .flat flat columns

theorem measureAll_eq_measureSpans : ∀ (mode : Mode) (parts : List Doc) (columns : Nat),
    Doc.measureAll mode parts columns = measureSpans (Doc.allSpans mode parts) columns
  | _, [], _ => rfl
  | mode, part :: parts, columns => by
    have later : Doc.measureAll mode parts = measureSpans (Doc.allSpans mode parts) :=
      funext (measureAll_eq_measureSpans mode parts)
    rw [Doc.measureAll_cons, measure_eq_measureSpans mode part, later, Doc.allSpans,
      measureSpans_append]

end

theorem measureFrames_eq_measureSpans (frames : List Frame) (columns : Nat) :
    measureFrames frames columns = measureSpans (frames.flatMap Frame.spans) columns := by
  induction frames generalizing columns with
  | nil => rfl
  | cons frame frames ih =>
    rw [measureFrames, measureAll_eq_measureSpans, funext ih, List.flatMap_cons,
      measureSpans_append, Frame.spans]

/-- The recursive measurement compares the text of the line with the columns. -/
theorem fits_iff_length_lineText (next : Doc) (rest : List Frame) (columns : Nat) :
    fits next rest columns = true ↔ (lineText (lineSpans next rest)).length ≤ columns := by
  rw [fits_iff, measure_eq_measureSpans, funext (measureFrames_eq_measureSpans rest),
    ← measureSpans_append, measureSpans_ne_exceeded_iff, lineSpans]

/-- A measurement under way: the columns that are left, fewer than none if the line is too long, the
documents that are met next, and the frames behind them. -/
structure Gauge where
  columns : Int
  pending : List (Mode × Doc)
  behind : List Frame

namespace Gauge

def start (next : Doc) (rest : List Frame) (columns : Nat) : Gauge :=
  ⟨columns, [(.flat, next)], rest⟩

/-- Looks at a document: it ends the line, takes columns, or leaves its parts to be met. -/
def look (columns : Int) (mode : Mode) (doc : Doc) (pending : List (Mode × Doc))
    (behind : List Frame) : Bool ⊕ Gauge :=
  match doc with
  | .nil => .inr ⟨columns, pending, behind⟩
  | .text s => .inr ⟨columns - s.length, pending, behind⟩
  | .line kind =>
    match mode, kind with
    | .flat, .soft => .inr ⟨columns, pending, behind⟩
    | .flat, .space => .inr ⟨columns - 1, pending, behind⟩
    | _, _ => .inl true
  | .concat parts => .inr ⟨columns, parts.map (mode, ·) ++ pending, behind⟩
  | .indent inner => .inr ⟨columns, (mode, inner) :: pending, behind⟩
  | .group broken inner => .inr ⟨columns, (mode.inside broken, inner) :: pending, behind⟩
  | .ifBreak broken flat =>
    .inr ⟨columns, (mode, if mode = .broken then broken else flat) :: pending, behind⟩

/-- Looks at the next document, or takes up the next frame if none is pending. The measurement ends
as soon as columns are missing, where the line ends, and where nothing follows. -/
def step (gauge : Gauge) : Bool ⊕ Gauge :=
  if gauge.columns < 0 then .inl false
  else
    match gauge.pending, gauge.behind with
    | [], [] => .inl true
    | [], frame :: behind => .inr ⟨gauge.columns, frame.docs.map (frame.mode, ·), behind⟩
    | (mode, doc) :: pending, behind => look gauge.columns mode doc pending behind

/-- The answer, if it is found in so many steps. -/
def run : Nat → Gauge → Option Bool
  | 0, _ => none
  | turns + 1, gauge =>
    match gauge.step with
    | .inl answer => some answer
    | .inr next => run turns next

/-- What is still to be met. -/
def spans (gauge : Gauge) : List Span :=
  gauge.pending.flatMap (fun item => item.2.spans item.1) ++ gauge.behind.flatMap Frame.spans

/-- The line still to be met is not longer than the columns that are left. -/
def Fits (gauge : Gauge) : Prop := ((lineText gauge.spans).length : Int) ≤ gauge.columns

instance (gauge : Gauge) : Decidable gauge.Fits := inferInstanceAs (Decidable (_ ≤ _))

/-- A bound on the steps that are still to be taken. -/
noncomputable def weight (gauge : Gauge) : Nat :=
  sizeOf (gauge.pending.map Prod.snd) + sizeOf gauge.behind

/-- The answer of a step is right, or a step leaves less to be done for the same answer. -/
def Advances (gauge : Gauge) : Bool ⊕ Gauge → Prop
  | .inl answer => answer = decide gauge.Fits
  | .inr next => (next.Fits ↔ gauge.Fits) ∧ next.weight < gauge.weight

theorem sizeOf_append (docs more : List Doc) :
    sizeOf (docs ++ more) + 1 = sizeOf docs + sizeOf more := by
  induction docs with
  | nil => simp [Nat.add_comm]
  | cons doc docs ih =>
    simp only [List.cons_append, List.cons.sizeOf_spec]
    omega

/-- A step that lays out a document leaves the spans as they are. -/
theorem advances_of_spans {columns : Int} {item : Mode × Doc} {pending : List (Mode × Doc)}
    {behind : List Frame} (items : List (Mode × Doc))
    (same : items.flatMap (fun item => item.2.spans item.1) = item.2.spans item.1)
    (less : sizeOf (items.map Prod.snd) ≤ sizeOf item.2 + 1) :
    Advances ⟨columns, item :: pending, behind⟩ (.inr ⟨columns, items ++ pending, behind⟩) := by
  constructor
  · simp only [Fits, spans, List.flatMap_append, List.flatMap_cons, same]
  · have split := sizeOf_append (items.map Prod.snd) (pending.map Prod.snd)
    simp only [weight, List.map_append, List.map_cons, List.cons.sizeOf_spec]
    omega

theorem advances_of_text {columns : Int} {item : Mode × Doc} {s : String}
    (text : item.2.spans item.1 = [.text s]) (pending : List (Mode × Doc)) (behind : List Frame) :
    Advances ⟨columns, item :: pending, behind⟩ (.inr ⟨columns - s.length, pending, behind⟩) := by
  constructor
  · simp only [Fits, spans, List.flatMap_cons, text, List.cons_append, List.nil_append, lineText,
      String.length_append, Int.natCast_add]
    omega
  · simp only [weight, List.map_cons, List.cons.sizeOf_spec]
    omega

theorem advances_of_nil {gauge : Gauge} (enough : 0 ≤ gauge.columns)
    (ends : lineText gauge.spans = "") : gauge.Advances (.inl true) := by
  have fits : gauge.Fits := by simpa [Fits, ends] using enough
  exact (decide_eq_true fits).symm

theorem advances_of_lineEnd {columns : Int} (enough : 0 ≤ columns) {item : Mode × Doc}
    (ends : item.2.spans item.1 = [.lineEnd]) (pending : List (Mode × Doc)) (behind : List Frame) :
    Advances ⟨columns, item :: pending, behind⟩ (.inl true) := by
  refine advances_of_nil enough ?_
  rw [spans, List.flatMap_cons, ends]
  rfl

/-- One case for each kind of document: either it ends the line, or less is left to be met. -/
theorem advances_look {columns : Int} (enough : 0 ≤ columns) (mode : Mode) (doc : Doc)
    (pending : List (Mode × Doc)) (behind : List Frame) :
    Advances ⟨columns, (mode, doc) :: pending, behind⟩
      (look columns mode doc pending behind) := by
  cases doc with
  | nil => exact advances_of_spans [] rfl (by simp)
  | text s => exact advances_of_text rfl pending behind
  | line kind =>
    cases mode with
    | broken => exact advances_of_lineEnd enough rfl pending behind
    | flat =>
      cases kind with
      | soft => exact advances_of_spans [] rfl (by simp)
      | space => exact advances_of_text (s := " ") rfl pending behind
      | hard => exact advances_of_lineEnd enough rfl pending behind
  | concat parts =>
    refine advances_of_spans (parts.map (mode, ·)) ?_ (by simp [Function.comp_def]; omega)
    rw [Doc.spans, Doc.allSpans_eq_flatMap, List.flatMap_map]
  | indent inner =>
    exact advances_of_spans [(mode, inner)] (by simp [Doc.spans]) (by simp)
  | group broken inner =>
    exact advances_of_spans [(mode.inside broken, inner)] (by simp [Doc.spans])
      (by simp)
  | ifBreak broken flat =>
    refine advances_of_spans [(mode, if mode = .broken then broken else flat)] ?_ ?_
    · cases mode <;> simp [Doc.spans]
    · cases mode <;> simp

/-- Every step is right or makes progress, also at the end of a frame and when columns are
missing. -/
theorem advances_step (gauge : Gauge) : gauge.Advances gauge.step := by
  obtain ⟨columns, pending, behind⟩ := gauge
  unfold step
  split
  · rename_i short
    have exceeds : ¬ Fits ⟨columns, pending, behind⟩ := by
      intro fits
      have bound : ((lineText (spans ⟨columns, pending, behind⟩)).length : Int) ≤ columns := fits
      dsimp only at short
      omega
    exact (decide_eq_false exceeds).symm
  · rename_i enough
    rw [Int.not_lt] at enough
    match pending, behind with
    | [], [] => exact advances_of_nil enough rfl
    | [], frame :: behind =>
      have same : (frame.docs.map (frame.mode, ·)).flatMap (fun item => item.2.spans item.1) =
          frame.spans := by
        rw [Frame.spans, Doc.allSpans_eq_flatMap, List.flatMap_map]
      constructor
      · simp [Fits, spans, same]
      · cases frame
        simp [weight, Function.comp_def]
        omega
    | (mode, doc) :: pending, behind => exact advances_look enough mode doc pending behind

/-- The measurement comes to its answer after some steps. -/
theorem exists_run (gauge : Gauge) : ∃ turns, gauge.run turns = some (decide gauge.Fits) := by
  induction weight : gauge.weight using Nat.strongRecOn generalizing gauge with
  | ind bound ih =>
    subst weight
    have advances := gauge.advances_step
    cases taken : gauge.step with
    | inl answer =>
      rw [taken] at advances
      exact ⟨1, by rw [run, taken, ← advances]⟩
    | inr next =>
      rw [taken] at advances
      obtain ⟨turns, found⟩ := ih next.weight advances.2 next rfl
      exact ⟨turns + 1, by simp only [run, taken, found, advances.1]⟩

theorem fits_start_iff (next : Doc) (rest : List Frame) (columns : Nat) :
    (start next rest columns).Fits ↔ (lineText (lineSpans next rest)).length ≤ columns := by
  rw [Fits, spans, start, List.flatMap_singleton, lineSpans, Int.ofNat_le]

end Gauge

/-- What is laid out on one line fits with what follows it if and only if the text up to the end of
the line is not longer than the columns that are left. The measurement that takes one document after
the other from two stacks, and ends early, comes to this answer. What stands behind the end of the
line does not matter. -/
theorem fits_measures_line (next : Doc) (rest : List Frame) (columns : Nat) :
    (fits next rest columns = true ↔ (lineText (lineSpans next rest)).length ≤ columns) ∧
    (∃ turns, (Gauge.start next rest columns).run turns = some (fits next rest columns)) ∧
    ∀ front back, lineSpans next rest = front ++ .lineEnd :: back →
      ∀ next' rest' back', lineSpans next' rest' = front ++ .lineEnd :: back' →
        fits next' rest' columns = fits next rest columns := by
  have answers := fits_iff_length_lineText next rest columns
  refine ⟨answers, ?_, ?_⟩
  · obtain ⟨turns, found⟩ := (Gauge.start next rest columns).exists_run
    refine ⟨turns, found.trans (congrArg some ?_)⟩
    rw [Bool.eq_iff_iff, decide_eq_true_eq, Gauge.fits_start_iff, answers]
  · intro front back ends next' rest' back' ends'
    rw [Bool.eq_iff_iff, answers, fits_iff_length_lineText, ends, ends', lineText_append_lineEnd,
      lineText_append_lineEnd]

/-- `f(x`, broken behind the parenthesis whatever surrounds it. -/
def sampleBroken : Doc :=
  .concat [.text "f", .group true (.concat [.text "(", .indent .softLine, .text "x"])]

theorem fits_measures_line_sampleBroken :
    lineSpans sampleBroken [⟨.flat, [.spaceLine, .text "and more"]⟩] =
        [.text "f", .text "("] ++ .lineEnd :: [.text "x", .text " ", .text "and more"] ∧
      lineSpans (.concat [.text "f", .text "("]) [⟨.broken, [.spaceLine]⟩] =
        [.text "f", .text "("] ++ .lineEnd :: [] ∧
      fits sampleBroken [⟨.flat, [.spaceLine, .text "and more"]⟩] 2 = true ∧
      fits (.concat [.text "f", .text "("]) [⟨.broken, [.spaceLine]⟩] 2 =
        fits sampleBroken [⟨.flat, [.spaceLine, .text "and more"]⟩] 2 := by
  obtain ⟨measured, -, same⟩ :=
    fits_measures_line sampleBroken [⟨.flat, [.spaceLine, .text "and more"]⟩] 2
  exact ⟨rfl, rfl, measured.2 (by decide), same _ _ rfl _ _ _ rfl⟩

end Mintage.Layout
