import Mintage.Proofs.Layout.Pen
import Mintage.Proofs.Solidity.Regular
import Mintage.Proofs.Text.Plain
import Mintage.Solidity.OneLine

/-! Neat programs: the texts in them stay in one line, and no line is made of texts that are blank
or starts with a brace by accident. -/
namespace Mintage.Solidity

open Layout Text

/-- The text stays in one line. -/
def isLevel (s : String) : Bool := !s.toList.contains '\n'

/-- A line below a gap may start with the text. -/
def startsLine (s : String) : Bool := Pen.gap.reaches .brace s

/-- A line of a comment may end with the text. -/
def endsLineInInk (s : String) : Bool := Pen.ink.reaches .ink s

@[simp] theorem isLevel_iff {s : String} : isLevel s = true ↔ '\n' ∉ s.toList := by
  simp [isLevel]

namespace Expr

/-- A single text in one line, which may be blank if another text follows. -/
def isShort : Expr → Bool
  | ident name => isLevel name
  | number digits => isLevel digits
  | _ => false

/-- What stands in front of the parenthesis of a tuple. -/
def isSilent : Expr → Bool
  | ident name => name.isEmpty
  | _ => false

mutual

def isNeat : Expr → Bool
  | ident name => startsLine name
  | number digits => startsLine digits
  | string _ => true
  | bool _ => true
  | member object name => object.isNeat && isLevel name
  | index object key => object.isNeat && (key.isShort || key.isNeat)
  | call callee arguments => (callee.isSilent || callee.isNeat) && allNeat arguments
  | callNamed callee arguments => callee.isNeat && allNamedNeat arguments
  | assign target operator value => target.isNeat && isLevel operator && value.isNeat
  | binary left operator right => left.isNeat && isLevel operator && right.isNeat

def allNeat : List Expr → Bool
  | [] => true
  | e :: es => e.isNeat && allNeat es

def allNamedNeat : List (String × Expr) → Bool
  | [] => true
  | (name, e) :: es => isLevel name && e.isNeat && allNamedNeat es

end

end Expr

def Variable.isNeat (v : Variable) : Bool :=
  startsLine v.type && (v.modifiers ++ [v.name]).all isLevel &&
    v.value.all fun e => e.isShort || e.isNeat

namespace Stmt

mutual

def isNeat : Stmt → Bool
  | expr e => e.isNeat
  | decl v => v.isNeat
  | ret none => true
  | ret (some e) => e.isNeat
  | cond test body alternative => test.isNeat && allNeat body && alternativeNeat alternative
  | loop start test step body => [start, test, step].all isLevel && allNeat body

def allNeat : List Stmt → Bool
  | [] => true
  | s :: ss => s.isNeat && allNeat ss

def alternativeNeat : Option (List Stmt) → Bool
  | none => true
  | some ss => allNeat ss

end

end Stmt

def Comment.isNeat : Comment → Bool
  | .banner title => isLevel title
  | .note text => (lines text).all fun line => endsLineInInk (trimRight line)

def Function.isNeat (f : Function) : Bool :=
  isLevel f.name && f.arguments.all startsLine && f.modifiers.all startsLine &&
    f.result.all isLevel && f.body.all Stmt.isNeat

def Constructor.isNeat (c : Constructor) : Bool :=
  c.arguments.all startsLine && c.base.all Expr.isNeat && c.body.all Stmt.isNeat

def Declaration.isNeat : Declaration → Bool
  | .field v => v.isNeat
  | .function f => f.isNeat
  | .constructor c => c.isNeat
  | .record name members => isLevel name && members.all Variable.isNeat
  | .attach library type => isLevel library && isLevel type

def Member.isNeat : Member → Bool
  | .declaration d => d.isNeat
  | .comment c => c.isNeat

def Contract.isNeat (c : Contract) : Bool :=
  isLevel c.name && c.bases.all startsLine && c.body.all Member.isNeat

def Item.isNeat : Item → Bool
  | .contract c => c.isNeat
  | .comment c => c.isNeat

def Program.isNeat (p : Program) : Bool :=
  p.license.all endsLineInInk && p.pragma.all isLevel && !p.body.isEmpty && p.body.all Item.isNeat


section

variable {s t : String}

/-- A line may go on with anything that stays in it. -/
theorem startsLine_append (starts : startsLine s = true) (level : isLevel t = true) :
    startsLine (s ++ t) = true := by
  obtain ⟨pen, written, inked⟩ := (Option.any_eq_true _ _).1 starts
  have above : pen ≠ .gap := by
    rintro rfl
    exact absurd inked (by decide)
  rw [startsLine, Pen.reaches, String.toList_append, Pen.text_append, written, Option.bind_some,
    Pen.text_of_notMem (isLevel_iff.1 level) above]
  exact decide_eq_true (Pen.le_after (of_decide_eq_true inked) (le_refl Pen.brace) t.toList)

/-- A word has neither gaps nor braces. -/
theorem startsLine_of_isWord (word : isWord s = true) : startsLine s = true := by
  simp only [isWord, Bool.and_eq_true, Bool.not_eq_true', String.isEmpty_eq_false_iff] at word
  obtain ⟨filled, plain⟩ := word
  have solid (c : Char) (mem : c ∈ s.toList) : isPlain c = true := List.all_eq_true.1 plain c mem
  have whole : marks s.toList = s.toList :=
    List.filter_eq_self.2 fun c mem => by simp [isBlank_of_isPlain (solid c mem)]
  have feed : '\n' ∉ s.toList := fun mem => absurd (solid _ mem) (by decide)
  have brace : (marks s.toList).head? ≠ some '}' := fun head =>
    absurd (solid _ (whole ▸ List.mem_of_head? head)) (by decide)
  have inked : Pen.brace ≤ Pen.gap.after s.toList :=
    Pen.brace_le_after _ (by simpa [whole] using filled)
  simp [startsLine, Pen.reaches, Pen.text, feed, brace, inked]

theorem isLevel_of_isPlainText (plain : isPlainText s = true) : isLevel s = true :=
  isLevel_iff.2 fun mem => absurd (List.all_eq_true.1 plain _ mem) (by decide)

theorem isLevel_append (first : isLevel s = true) (second : isLevel t = true) :
    isLevel (s ++ t) = true := by
  simp_all

theorem isWord_toString (n : Nat) : isWord (toString n) = true := by
  rw [isWord, isPlainText_toString, Bool.and_true, Bool.not_eq_true', String.isEmpty_eq_false_iff]
  intro empty
  have printed : Nat.toDigits 10 n = [] := by simpa using congrArg String.toList empty
  exact Nat.toDigits_ne_nil printed

theorem isLevel_spaced {ws : List String} (all : ws.all isLevel = true) :
    isLevel (spaced ws) = true :=
  isLevel_iff.2 (closed_notMem.spaced fun w mem => isLevel_iff.1 (List.all_eq_true.1 all w mem))

/-- Spaced words stay in one line, whatever the text that they were taken from. -/
theorem isLevel_spaced_words (s : String) : isLevel (spaced (words s)) = true := by
  refine isLevel_spaced (List.all_eq_true.2 fun w mem => isLevel_iff.2 fun feed => ?_)
  have solid := (word_solid mem).2 '\n' feed
  exact absurd solid (by decide)

end

namespace Expr

variable {a b : Expr} {es : List Expr} {name operator : String}

@[simp] theorem allNeat_eq_all (es : List Expr) : allNeat es = es.all isNeat := by
  induction es with
  | nil => rfl
  | cons e es ih => rw [allNeat, List.all_cons, ih]

@[simp] theorem isNeat_ident : (ident name).isNeat = startsLine name := rfl

@[simp] theorem isNeat_nat (n : Nat) : (nat n).isNeat = true :=
  startsLine_of_isWord (isWord_toString n)

@[simp] theorem isNeat_string (value : String) : (string value).isNeat = true := rfl

@[simp] theorem isNeat_bool (value : Bool) : (bool value).isNeat = true := rfl

@[simp] theorem isNeat_member : (a.member name).isNeat = (a.isNeat && isLevel name) := rfl

@[simp] theorem isNeat_index :
    (a.index b).isNeat = (a.isNeat && (b.isShort || b.isNeat)) := rfl

@[simp] theorem isNeat_apply :
    (apply name es).isNeat = ((name.isEmpty || startsLine name) && es.all isNeat) := by
  rw [apply, isNeat, allNeat_eq_all]
  rfl

@[simp] theorem isNeat_method :
    (method a name es).isNeat = (a.isNeat && isLevel name && es.all isNeat) := by
  rw [method, isNeat, allNeat_eq_all]
  rfl

@[simp] theorem isNeat_binary :
    (a.binary operator b).isNeat = (a.isNeat && isLevel operator && b.isNeat) := rfl

@[simp] theorem isNeat_assign :
    (a.assign operator b).isNeat = (a.isNeat && isLevel operator && b.isNeat) := rfl

/-- A value that is read from a text is a single one, or one that is known. -/
theorem isNeat_ofWord {s : String} (level : isLevel (trim s) = true) :
    ((ofWord s).isShort || (ofWord s).isNeat) = true := by
  simp only [ofWord]
  split
  · rfl
  split
  · rfl
  split
  · exact Bool.or_eq_true_iff.2 (.inl level)
  · exact Bool.or_eq_true_iff.2 (.inl level)

end Expr

namespace Stmt

variable {a b : Expr} {ss : List Stmt} {type name : String}

@[simp] theorem allNeat_eq_all (ss : List Stmt) : allNeat ss = ss.all isNeat := by
  induction ss with
  | nil => rfl
  | cons s ss ih => rw [allNeat, List.all_cons, ih]

@[simp] theorem isNeat_expr : (expr a).isNeat = a.isNeat := rfl

@[simp] theorem isNeat_returns : (returns a).isNeat = a.isNeat := rfl

@[simp] theorem isNeat_set : (set a b).isNeat = (a.isNeat && b.isNeat) := by
  rw [set, Expr.set, isNeat_expr, Expr.isNeat_assign, show isLevel "=" = true by decide,
    Bool.and_true]

@[simp] theorem isNeat_require (message : String) : (require a message).isNeat = a.isNeat := by
  simp +decide [require]

@[simp] theorem isNeat_declare :
    (declare type name a).isNeat =
      (startsLine type && isLevel name && (a.isShort || a.isNeat)) := by
  simp [declare, isNeat, Variable.isNeat]

@[simp] theorem isNeat_cond {alternative : Option (List Stmt)} :
    (cond a ss alternative).isNeat =
      (a.isNeat && ss.all isNeat && (alternative.getD []).all isNeat) := by
  cases alternative <;> simp [isNeat, alternativeNeat]

end Stmt

namespace Member

variable {type name : String} {modifiers arguments : List String} {result : Option String}
  {value : Expr} {body : List Stmt}

@[simp] theorem isNeat_fieldWith : (fieldWith type modifiers name value).isNeat =
    (startsLine type && (modifiers ++ [name]).all isLevel &&
      (value.isShort || value.isNeat)) := rfl

@[simp] theorem isNeat_constant (value : Nat) : (constant name value).isNeat = isLevel name := by
  have typed : startsLine "uint256" = true := by decide
  have modified : ["public", "constant"].all isLevel = true := by decide
  rw [constant, isNeat_fieldWith, typed, List.all_append, modified]
  simp

@[simp] theorem isNeat_function : (function name arguments modifiers result body).isNeat =
    (isLevel name && arguments.all startsLine && modifiers.all startsLine && result.all isLevel &&
      body.all Stmt.isNeat) := rfl

end Member

end Mintage.Solidity
