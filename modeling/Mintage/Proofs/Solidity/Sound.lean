import Mintage.Proofs.Outline
import Mintage.Proofs.Solidity.Nesting
import Mintage.Proofs.Text.Skeleton

/-! Pieces of source that are tidy and close their literals. -/
namespace Mintage.Solidity

open Layout Text

/-- The piece is tidy, and it closes the literals that it opens. -/
def isSound (piece : Piece) : Bool := isTidy piece && closesLiterals piece.2

theorem isTidy_of_isSound {piece : Piece} (sound : isSound piece = true) : isTidy piece = true := by
  rw [isSound, Bool.and_eq_true] at sound
  exact sound.1

def AllSound (ps : List Piece) : Prop := ∀ piece ∈ ps, isSound piece = true

instance (ps : List Piece) : Decidable (AllSound ps) :=
  inferInstanceAs (Decidable (∀ piece ∈ ps, isSound piece = true))

section

variable {ps qs : List Piece} {piece : Piece}

@[simp] theorem sound_nil : AllSound [] := nofun

@[simp] theorem sound_append : AllSound (ps ++ qs) ↔ AllSound ps ∧ AllSound qs :=
  List.forall_mem_append

theorem sound_cons : AllSound (piece :: ps) ↔ isSound piece = true ∧ AllSound ps :=
  List.forall_mem_cons

@[simp] theorem sound_known (known : isSound piece = true) :
    AllSound (piece :: ps) ↔ AllSound ps := by
  rw [sound_cons, and_iff_right known]

/-- Lists of members and statements are sound if each item is. -/
theorem sound_flatMap {α : Type} {items : List α} {f : α → List Piece}
    (all : ∀ item ∈ items, AllSound (f item)) : AllSound (items.flatMap f) := by
  intro piece mem
  obtain ⟨item, listed, own⟩ := List.mem_flatMap.1 mem
  exact all item listed piece own

variable {α : Type} {f : α → List Piece} {item : α}

@[simp] theorem sound_one : AllSound ((Part.one item).items.flatMap f) ↔ AllSound (f item) := by
  rw [Part.items, List.flatMap_singleton]

@[simp] theorem sound_when {condition : Bool} :
    AllSound ((Part.when condition item).items.flatMap f) ↔
      condition = true → AllSound (f item) := by
  cases condition <;> simp [Part.items]

@[simp] theorem sound_optional {item : Option α} :
    AllSound ((Part.optional item).items.flatMap f) ↔ ∀ a, item = some a → AllSound (f a) := by
  cases item <;> simp [Part.items]

@[simp] theorem sound_all {items : List α} :
    AllSound ((Part.all items).items.flatMap f) ↔ AllSound (items.flatMap f) := Iff.rfl

end

section

variable {s t : String}

/-- A text that leads to a place where a sign follows may stand there. -/
theorem isTidy_of_tidy (tidy : (Doc.text s).Tidy ⟨.fresh, []⟩ ⟨.code, []⟩) :
    isTidy (.code, s) = true := by
  have read := (tidy.scans 0 [.text s] rfl .code rfl).1
  rw [rawChars_text] at read
  have fits := tidy.fits
  rw [Doc.lexemes_text] at fits
  simp only [isTidy, Doc.passes, Bool.and_eq_true, decide_eq_true_eq]
  exact ⟨by rw [Doc.leads, read]; rfl, fits⟩

theorem notMem_of_isPlainText (plain : isPlainText s = true) : '"' ∉ s.toList := fun mem =>
  absurd (List.all_eq_true.1 plain _ mem) (by decide)

/-- A plain text may stand where a word may, and a sign has to follow it. -/
theorem within_isPlainText (plain : isPlainText s = true) :
    (Doc.text s).Within .fresh .code := by
  by_cases empty : s = ""
  · rw [empty]
    exact Doc.within_text (by decide)
  · refine Doc.within_isWord ?_
    simp [isWord, plain, empty]

/-- A plain text may stand wherever a sign follows. -/
theorem isSound_of_isPlainText (plain : isPlainText s = true) : isSound (.code, s) = true := by
  rw [isSound, isTidy_of_tidy (within_isPlainText plain []),
    closesLiterals_of_notMem (notMem_of_isPlainText plain)]
  rfl

/-- Numbers are plain. -/
theorem isSound_toString (n : Nat) : isSound (.code, toString n) = true :=
  isSound_of_isPlainText (isPlainText_toString n)

end

namespace Expr

variable {a b : Expr} {es : List Expr} {name operator : String}

theorem sound_ident (known : isSound (.code, name) = true) : AllSound (ident name).pieces := by
  simp [pieces, known]

@[simp] theorem sound_nat (n : Nat) : AllSound (nat n).pieces :=
  (sound_known (isSound_toString n)).2 sound_nil

@[simp] theorem sound_string (value : String) : AllSound (string value).pieces := by simp [pieces]

@[simp] theorem sound_bool (value : Bool) : AllSound (bool value).pieces := by simp [pieces]

@[simp] theorem sound_member (known : isSound (.code, name) = true) :
    AllSound (a.member name).pieces ↔ AllSound a.pieces := by simp [pieces, known]

@[simp] theorem sound_index :
    AllSound (a.index b).pieces ↔ AllSound a.pieces ∧ AllSound b.pieces := by
  simp [pieces]

@[simp] theorem sound_call :
    AllSound (a.call es).pieces ↔ AllSound a.pieces ∧ AllSound (es.flatMap pieces) := by
  simp [pieces]

@[simp] theorem sound_apply (known : isSound (.code, name) = true) :
    AllSound (apply name es).pieces ↔ AllSound (es.flatMap pieces) := by
  simp [apply, sound_ident known]

@[simp] theorem sound_method (known : isSound (.code, name) = true) :
    AllSound (a.method name es).pieces ↔ AllSound a.pieces ∧ AllSound (es.flatMap pieces) := by
  simp [method, known]

@[simp] theorem sound_assign (known : isSound (.operator, operator) = true) :
    AllSound (a.assign operator b).pieces ↔ AllSound a.pieces ∧ AllSound b.pieces := by
  simp [pieces, known]

@[simp] theorem sound_binary (known : isSound (.operator, operator) = true) :
    AllSound (a.binary operator b).pieces ↔ AllSound a.pieces ∧ AllSound b.pieces := by
  simp [pieces, known]

end Expr

namespace Stmt

variable {a b : Expr} {ss : List Stmt} {name type : String}

@[simp] theorem sound_expr : AllSound (expr a).pieces ↔ AllSound a.pieces := by rw [pieces]

@[simp] theorem sound_returns : AllSound (returns a).pieces ↔ AllSound a.pieces := by
  rw [returns, pieces]

@[simp] theorem sound_set : AllSound (set a b).pieces ↔ AllSound a.pieces ∧ AllSound b.pieces := by
  simp (disch := decide) [set, Expr.set]

@[simp] theorem sound_require (message : String) :
    AllSound (require a message).pieces ↔ AllSound a.pieces := by
  simp (disch := decide) [require]

@[simp] theorem sound_declare (typed : isSound (.phrase, type) = true)
    (named : isSound (.code, name) = true) :
    AllSound (declare type name a).pieces ↔ AllSound a.pieces := by
  simp [declare, pieces, Variable.pieces, typed, named]

@[simp] theorem sound_cond {alternative : Option (List Stmt)} :
    AllSound (cond a ss alternative).pieces ↔
      AllSound a.pieces ∧ AllSound (ss.flatMap pieces) ∧
        AllSound ((alternative.getD []).flatMap pieces) := by
  cases alternative <;> simp [pieces, alternativePieces]

end Stmt

namespace Member

variable {type name : String} {modifiers arguments : List String} {result : Option String}
  {value : Expr} {body : List Stmt}

@[simp] theorem sound_fieldWith (typed : AllSound ((type :: modifiers).map (Role.phrase, ·)))
    (named : isSound (.code, name) = true) :
    AllSound (fieldWith type modifiers name value).pieces ↔ AllSound value.pieces := by
  have own : (fieldWith type modifiers name value).pieces =
      (type :: modifiers).map (Role.phrase, ·) ++ (Role.code, name) :: value.pieces := rfl
  rw [own, sound_append, and_iff_right typed, sound_known named]

theorem sound_constant (named : isSound (.code, name) = true) (value : Nat) :
    AllSound (constant name value).pieces :=
  (sound_fieldWith (by decide) named).2 (Expr.sound_nat value)

@[simp] theorem sound_function
    (header : AllSound ((name :: arguments).map (Role.code, ·) ++
      modifiers.map (Role.phrase, ·) ++ result.toList.map (Role.code, ·))) :
    AllSound (function name arguments modifiers result body).pieces ↔
      AllSound (body.flatMap Stmt.pieces) := by
  have own : (function name arguments modifiers result body).pieces =
      (name :: arguments).map (Role.code, ·) ++ modifiers.map (Role.phrase, ·) ++
        result.toList.map (Role.code, ·) ++ Stmt.allPieces body := rfl
  rw [own, sound_append, and_iff_right header, Stmt.allPieces_eq_flatMap]

end Member

end Mintage.Solidity
