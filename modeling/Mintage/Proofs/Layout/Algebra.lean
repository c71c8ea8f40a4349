import Mintage.Layout.Render

/-! The laws of documents: what is written is the same, wherever in a document one side of a law
stands for the other. -/
namespace Mintage.Layout

/-- Frames take the same room if the first ones do and the rest does. -/
theorem measureFrames_congr {mode : Mode} {parts parts' : List Doc} {rest rest' : List Frame}
    (first : Doc.measureAll mode parts = Doc.measureAll mode parts')
    (later : measureFrames rest = measureFrames rest') :
    measureFrames (⟨mode, parts⟩ :: rest) = measureFrames (⟨mode, parts'⟩ :: rest') := by
  funext columns
  rw [measureFrames, measureFrames, first, later]

mutual

/-- Of what follows a document, only the room that is measured in it matters. -/
theorem put_congr (width : Nat) {rest rest' : List Frame}
    (same : measureFrames rest = measureFrames rest') :
    ∀ (indent : Nat) (mode : Mode) (doc : Doc) (sheet : Sheet),
      put width rest indent mode doc sheet = put width rest' indent mode doc sheet
  | _, _, .nil, _ => rfl
  | _, _, .text _, _ => rfl
  | _, _, .line _, _ => rfl
  | indent, mode, .concat parts, sheet => putAll_congr width same indent mode parts sheet
  | indent, mode, .indent inner, sheet =>
    put_congr width same (indent + indentWidth) mode inner sheet
  | indent, _, .group broken inner, sheet => by
    have chosen : groupMode width rest broken inner sheet =
        groupMode width rest' broken inner sheet := by
      rw [groupMode, groupMode, fits, fits, same]
    rw [put, put, chosen]
    exact put_congr width same indent _ inner sheet
  | indent, .broken, .ifBreak broken _, sheet => put_congr width same indent .broken broken sheet
  | indent, .flat, .ifBreak _ flat, sheet => put_congr width same indent .flat flat sheet

theorem putAll_congr (width : Nat) {rest rest' : List Frame}
    (same : measureFrames rest = measureFrames rest') :
    ∀ (indent : Nat) (mode : Mode) (parts : List Doc) (sheet : Sheet),
      putAll width rest indent mode parts sheet = putAll width rest' indent mode parts sheet
  | _, _, [], _ => rfl
  | indent, mode, part :: parts, sheet => by
    rw [putAll, putAll, put_congr width (measureFrames_congr rfl same) indent mode part sheet]
    exact putAll_congr width same indent mode parts _

end

@[simp] theorem Room.andThen_left_eq (room : Room) : room.andThen .left = room := by
  cases room <;> rfl

theorem measureFrames_nil (mode : Mode) (rest : List Frame) :
    measureFrames (⟨mode, []⟩ :: rest) = measureFrames rest := rfl

theorem measureFrames_append (mode : Mode) (parts more : List Doc) (rest : List Frame) :
    measureFrames (⟨mode, parts ++ more⟩ :: rest) =
      measureFrames (⟨mode, parts⟩ :: ⟨mode, more⟩ :: rest) := by
  funext columns
  have behind : measureFrames (⟨mode, more⟩ :: rest) = fun left =>
    (Doc.measureAll mode more left).andThen (measureFrames rest) := rfl
  rw [measureFrames, measureFrames, Doc.measureAll_append, Room.andThen_assoc, behind]

/-- The documents in front are written with the others behind them in view. -/
theorem putAll_append (width : Nat) (rest : List Frame) (indent : Nat) (mode : Mode)
    (parts more : List Doc) (sheet : Sheet) :
    putAll width rest indent mode (parts ++ more) sheet =
      putAll width rest indent mode more
        (putAll width (⟨mode, more⟩ :: rest) indent mode parts sheet) := by
  induction parts generalizing sheet with
  | nil => rfl
  | cons part parts ih =>
    rw [List.cons_append, putAll, ih, putAll,
      put_congr width (measureFrames_append mode parts more rest) indent mode part sheet]

theorem measureAll_map_indent (mode : Mode) (parts : List Doc) :
    Doc.measureAll mode (parts.map .indent) = Doc.measureAll mode parts := by
  induction parts with
  | nil => rfl
  | cons part parts ih =>
    funext columns
    rw [List.map_cons, Doc.measureAll_cons, Doc.measureAll_cons, ih]
    rfl

/-- Indenting each document is the same as writing all of them further in. -/
theorem putAll_map_indent (width : Nat) (rest : List Frame) (indent : Nat) (mode : Mode)
    (parts : List Doc) (sheet : Sheet) :
    putAll width rest indent mode (parts.map .indent) sheet =
      putAll width rest (indent + indentWidth) mode parts sheet := by
  induction parts generalizing sheet with
  | nil => rfl
  | cons part parts ih =>
    have behind : measureFrames (⟨mode, parts.map .indent⟩ :: rest) =
        measureFrames (⟨mode, parts⟩ :: rest) :=
      measureFrames_congr (measureAll_map_indent mode parts) rfl
    rw [List.map_cons, putAll, ih, putAll, put, put_congr width behind]

/-- Documents that stand for each other: they are marked alike, they take the same room, and they
are written alike. -/
structure Alike (a b : Doc) : Prop where
  mark : a.hasHardLine = b.hasHardLine
  measured : ∀ mode, a.measure mode = b.measure mode
  written : ∀ width rest indent mode, put width rest indent mode a = put width rest indent mode b

/-- Lists of documents that stand for each other. -/
structure AlikeAll (as bs : List Doc) : Prop where
  mark : Doc.anyHardLine as = Doc.anyHardLine bs
  measured : ∀ mode, Doc.measureAll mode as = Doc.measureAll mode bs
  written : ∀ width rest indent mode,
    putAll width rest indent mode as = putAll width rest indent mode bs

namespace AlikeAll

variable {as bs cs ds : List Doc}

theorem refl (as : List Doc) : AlikeAll as as :=
  ⟨rfl, fun _ => rfl, fun _ _ _ _ => rfl⟩

/-- What stands behind is measured while what stands in front is written, so both equations are
needed. -/
theorem append (first : AlikeAll as bs) (second : AlikeAll cs ds) :
    AlikeAll (as ++ cs) (bs ++ ds) where
  mark := by
    have front := first.mark
    have back := second.mark
    rw [Doc.anyHardLine_eq_any, Doc.anyHardLine_eq_any] at front back ⊢
    rw [List.any_append, List.any_append, front, back]
  measured mode := by
    funext columns
    rw [Doc.measureAll_append, Doc.measureAll_append, first.measured, second.measured]
  written width rest indent mode := by
    funext sheet
    have behind : measureFrames (⟨mode, cs⟩ :: rest) = measureFrames (⟨mode, ds⟩ :: rest) :=
      measureFrames_congr (second.measured mode) rfl
    rw [putAll_append, putAll_append, second.written, first.written,
      putAll_congr width behind indent mode bs sheet]

theorem of_alike {a b : Doc} (alike : Alike a b) : AlikeAll [a] [b] where
  mark := congrArg (· || false) alike.mark
  measured mode := by
    funext columns
    rw [Doc.measureAll_cons, Doc.measureAll_cons, alike.measured]
  written width rest indent mode := by
    funext sheet
    rw [putAll, alike.written]
    rfl

/-- A document of several parts stands for the parts. -/
theorem splice (parts : List Doc) : AlikeAll [.concat parts] parts where
  mark := Bool.or_false _
  measured mode := by
    funext columns
    rw [Doc.measureAll_cons, Doc.measure]
    exact Room.andThen_left_eq _
  written width rest indent mode := by
    funext sheet
    rw [putAll, put, putAll]
    exact putAll_congr width (measureFrames_nil mode rest) indent mode parts sheet

theorem nil : AlikeAll [.nil] [] := ⟨rfl, fun _ => rfl, fun _ _ _ _ => rfl⟩

/-- What is set in may be set in part by part. -/
theorem indent (parts : List Doc) :
    AlikeAll [.indent (.concat parts)] (parts.map .indent) where
  mark := by
    rw [Doc.anyHardLine_eq_any, Doc.anyHardLine_eq_any, List.any_map, List.any_cons, List.any_nil,
      Bool.or_false, Doc.hasHardLine, Doc.hasHardLine, Doc.anyHardLine_eq_any]
    rfl
  measured mode := by
    rw [measureAll_map_indent]
    exact (splice parts).measured mode
  written width rest indent mode := by
    funext sheet
    rw [putAll_map_indent, ← (splice parts).written]
    rfl

theorem concat (alike : AlikeAll as bs) : Alike (.concat as) (.concat bs) :=
  ⟨alike.mark, alike.measured, alike.written⟩

end AlikeAll

namespace Alike

variable {a b : Doc}

theorem refl (a : Doc) : Alike a a := ⟨rfl, fun _ => rfl, fun _ _ _ _ => rfl⟩

theorem symm (alike : Alike a b) : Alike b a where
  mark := alike.mark.symm
  measured mode := (alike.measured mode).symm
  written width rest indent mode := (alike.written width rest indent mode).symm

theorem trans {c : Doc} (first : Alike a b) (second : Alike b c) : Alike a c where
  mark := first.mark.trans second.mark
  measured mode := (first.measured mode).trans (second.measured mode)
  written width rest indent mode :=
    (first.written width rest indent mode).trans (second.written width rest indent mode)

/-- A part of a document may be replaced. -/
theorem part (alike : Alike a b) (front back : List Doc) :
    Alike (.concat (front ++ a :: back)) (.concat (front ++ b :: back)) :=
  ((AlikeAll.refl front).append
    ((AlikeAll.of_alike alike).append (AlikeAll.refl back))).concat

theorem indent (alike : Alike a b) : Alike (.indent a) (.indent b) where
  mark := alike.mark
  measured := alike.measured
  written width rest indent mode := alike.written width rest (indent + indentWidth) mode

/-- The group of a document is marked and measured as that of one that stands for it. -/
theorem grouped (alike : Alike a b) : Alike a.grouped b.grouped where
  mark := alike.mark
  measured mode := by
    rw [Doc.grouped, Doc.grouped, alike.mark]
    exact alike.measured _
  written width rest indent mode := by
    funext sheet
    rw [Doc.grouped, Doc.grouped, put, put, groupMode, groupMode, fits, fits, alike.mark,
      alike.measured, alike.written]

theorem ifBreak {c d : Doc} (broken : Alike a b) (flat : Alike c d) :
    Alike (.ifBreak a c) (.ifBreak b d) where
  mark := flat.mark
  measured mode := by
    cases mode with
    | broken => exact broken.measured .broken
    | flat => exact flat.measured .flat
  written width rest indent mode := by
    cases mode with
    | broken => exact broken.written width rest indent .broken
    | flat => exact flat.written width rest indent .flat

end Alike

theorem alike_concat_singleton (a : Doc) : Alike (.concat [a]) a where
  mark := Bool.or_false _
  measured mode := by
    funext columns
    exact Room.andThen_left_eq _
  written width rest indent mode := by
    funext sheet
    exact put_congr width (measureFrames_nil mode rest) indent mode a sheet

/-- An indentation shows at line ends only, and a text has none. -/
theorem alike_indent_text (s : String) : Alike (.indent (.text s)) (.text s) :=
  ⟨rfl, fun _ => rfl, fun _ _ _ _ => rfl⟩

/-- The mode of a group matters only to what stands in it outside of a group of its own. -/
theorem alike_grouped_grouped (a : Doc) : Alike a.grouped.grouped a.grouped where
  mark := rfl
  measured mode := by
    have once : (mode.inside a.hasHardLine).inside a.hasHardLine = mode.inside a.hasHardLine := by
      cases a.hasHardLine <;> rfl
    exact congrArg a.measure once
  written _ _ _ _ := rfl

/-- A document with a hole in it. Its groups are marked when the hole is filled. -/
inductive Context where
  | hole
  | part (front : List Doc) (inner : Context) (back : List Doc)
  | indent (inner : Context)
  | grouped (inner : Context)
  | ifBroken (inner : Context) (flat : Doc)
  | ifFlat (broken : Doc) (inner : Context)

def Context.fill (doc : Doc) : Context → Doc
  | hole => doc
  | part front inner back => .concat (front ++ inner.fill doc :: back)
  | indent inner => .indent (inner.fill doc)
  | grouped inner => (inner.fill doc).grouped
  | ifBroken inner flat => .ifBreak (inner.fill doc) flat
  | ifFlat broken inner => .ifBreak broken (inner.fill doc)

/-- Alikeness goes through every context, by induction on where the hole is. -/
theorem Alike.fill {a b : Doc} (alike : Alike a b) (context : Context) :
    Alike (context.fill a) (context.fill b) := by
  induction context with
  | hole => exact alike
  | part front inner back ih => exact ih.part front back
  | indent inner ih => exact ih.indent
  | grouped inner ih => exact ih.grouped
  | ifBroken inner flat ih => exact ih.ifBreak (.refl flat)
  | ifFlat broken inner ih => exact (refl broken).ifBreak ih

/-- Wherever one document stands in another one, the other may stand, at any width. -/
def Doc.StandsFor (a b : Doc) : Prop :=
  ∀ (context : Context) (width : Nat),
    (context.fill a).render width = (context.fill b).render width

theorem Alike.standsFor {a b : Doc} (alike : Alike a b) : a.StandsFor b := by
  intro context width
  rw [Doc.render, Doc.render, (alike.fill context).written]

/-- The laws of the layout. In a document whose groups are marked by what they hold, at any width:
nested parts may be spliced, empty parts left out or put in, a single part stands for itself, what
is set in may be set in part by part, a text need not be set in, and a group need not be a group of
its own. -/
theorem layout_laws :
    (∀ front inner back, Doc.StandsFor (.concat (front ++ .concat inner :: back))
      (.concat (front ++ inner ++ back))) ∧
    (∀ front back, Doc.StandsFor (.concat (front ++ .nil :: back)) (.concat (front ++ back))) ∧
    (∀ a, Doc.StandsFor (.concat [a]) a) ∧
    (∀ parts, Doc.StandsFor (.indent (.concat parts)) (.concat (parts.map .indent))) ∧
    (∀ s, Doc.StandsFor (.indent (.text s)) (.text s)) ∧
    ∀ a : Doc, a.grouped.grouped.StandsFor a.grouped := by
  refine ⟨fun front inner back => Alike.standsFor ?_, fun front back => Alike.standsFor ?_,
    fun a => (alike_concat_singleton a).standsFor, fun parts => Alike.standsFor ?_,
    fun s => (alike_indent_text s).standsFor, fun a => (alike_grouped_grouped a).standsFor⟩
  · rw [List.append_assoc]
    exact ((AlikeAll.refl front).append ((AlikeAll.splice inner).append (.refl back))).concat
  · exact ((AlikeAll.refl front).append (AlikeAll.nil.append (.refl back))).concat
  · exact (alike_concat_singleton _).symm.trans (AlikeAll.indent parts).concat

end Mintage.Layout
