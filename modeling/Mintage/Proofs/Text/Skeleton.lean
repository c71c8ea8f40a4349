import Mintage.Proofs.Layout.Typeset
import Mintage.Text.Quoted

/-! What is left of source text when its literals are emptied and its spaces and line feeds are
deleted. -/
namespace Mintage.Text

open Layout

/-- Where a reader stands that knows literals and nothing else. -/
inductive Quoting where
  | code
  | literal
  /-- Behind a backslash in a literal. -/
  | escaped
  deriving DecidableEq, Repr

namespace Quoting

def step : Quoting → Char → Quoting
  | code, c => if c = '"' then literal else code
  | literal, c => if c = '"' then code else if c = '\\' then escaped else literal
  | escaped, _ => literal

def run (q : Quoting) (cs : List Char) : Quoting := cs.foldl step q

theorem run_cons (q : Quoting) (c : Char) (cs : List Char) : q.run (c :: cs) = (q.step c).run cs :=
  rfl

theorem run_append (q : Quoting) (cs ds : List Char) : q.run (cs ++ ds) = (q.run cs).run ds :=
  List.foldl_append

/-- What a character leaves of itself: a quote that opens a literal stands for the empty one. -/
def kept : Quoting → Char → List Char
  | code, c => if c = '"' then ['"', '"'] else if isGap c then [] else [c]
  | _, _ => []

end Quoting

/-- The text behind the place where the reader stands, with empty literals and without gaps. -/
def skeletonFrom (q : Quoting) : List Char → List Char
  | [] => []
  | c :: cs => q.kept c ++ skeletonFrom (q.step c) cs

/-- The text with empty literals and without spaces and line feeds. -/
def skeleton (cs : List Char) : List Char := skeletonFrom .code cs

namespace Quoting

/-- What a reader lets through of a text, where `out` says what of each character. -/
def pass (out : Quoting → Char → List Char) (q : Quoting) : List Char → List Char
  | [] => []
  | c :: cs => out q c ++ pass out (q.step c) cs

variable {out : Quoting → Char → List Char}

/-- What is let through of the second part depends on where the first part leaves the reader. -/
theorem pass_append (q : Quoting) (cs ds : List Char) :
    q.pass out (cs ++ ds) = q.pass out cs ++ (q.run cs).pass out ds := by
  induction cs generalizing q with
  | nil => rfl
  | cons c cs ih => rw [List.cons_append, pass, pass, ih, run_cons, List.append_assoc]

theorem pass_append_of_run {cs : List Char} (closed : code.run cs = .code) (ds : List Char) :
    code.pass out (cs ++ ds) = code.pass out cs ++ code.pass out ds := by
  rw [pass_append, closed]

/-- In a literal every character is let through alike, and none of those that are written for a text
ends it. -/
theorem pass_encode {f : Char → List Char} (plain : ∀ c, out literal c = f c)
    (behind : ∀ c, out escaped c = f c) (cs rest : List Char) :
    literal.pass out (Quoted.encode cs ++ rest) =
        (Quoted.encode cs).flatMap f ++ literal.pass out rest ∧
      literal.run (Quoted.encode cs ++ rest) = literal.run rest := by
  induction cs with
  | nil => exact ⟨rfl, rfl⟩
  | cons c cs ih =>
    rw [Quoted.encode_cons, List.append_assoc]
    rcases Quoted.escape_cases c with ⟨d, same⟩ | ⟨quote, slash, same⟩
    · have first : literal.step '\\' = escaped := rfl
      have second : escaped.step d = literal := rfl
      simp [same, pass, run_cons, first, second, plain, behind, ih]
    · simp [same, pass, run_cons, step, quote, slash, plain, ih]

end Quoting

theorem skeletonFrom_eq_pass (q : Quoting) (cs : List Char) :
    skeletonFrom q cs = q.pass Quoting.kept cs := by
  induction cs generalizing q with
  | nil => rfl
  | cons c cs ih => rw [skeletonFrom, Quoting.pass, ih]

/-- The skeleton is one of the passes over a text, so that what holds of all passes holds of it. -/
theorem skeleton_eq_pass (cs : List Char) : skeleton cs = Quoting.code.pass Quoting.kept cs :=
  skeletonFrom_eq_pass .code cs

/-- Every literal that the text opens it also closes. -/
def closesLiterals (s : String) : Bool := Quoting.code.run s.toList == .code

theorem run_eq_code {s : String} (closed : closesLiterals s = true) :
    Quoting.code.run s.toList = .code := beq_iff_eq.1 closed

/-- Spaces do not end a literal. -/
theorem run_spaces {q : Quoting} {n : Nat} (closed : q.run (List.replicate n ' ') = .code) :
    q = .code := by
  induction n generalizing q with
  | zero => exact closed
  | succ n ih =>
    have space : q.step ' ' = .code := ih closed
    cases q <;> first | rfl | cases space

theorem run_gap {c : Char} (blank : isGap c = true) : Quoting.code.step c = .code := by
  simp only [isGap, Bool.or_eq_true, beq_iff_eq] at blank
  rcases blank with rfl | rfl <;> rfl

/-- If gaps are not let through and no text leaves a literal open, the same is let through of a page
and of its texts. -/
theorem pass_typeset {out : Quoting → Char → List Char}
    (gaps : ∀ c, isGap c = true → out .code c = []) {ts : List String} {cs : List Char}
    (typeset : Typeset ts cs) (closed : ∀ t ∈ ts, closesLiterals t = true) :
    Quoting.code.pass out cs = (ts.flatMap fun t => Quoting.code.pass out t.toList) ∧
      Quoting.code.run cs = .code := by
  induction typeset with
  | nil => exact ⟨rfl, rfl⟩
  | gap c blank rest ih =>
    rw [Quoting.pass, Quoting.run_cons, run_gap blank, gaps c blank]
    exact ih closed
  | whole t rest ih =>
    have first := run_eq_code (closed t List.mem_cons_self)
    obtain ⟨same, ends⟩ := ih fun other mem => closed other (List.mem_cons_of_mem _ mem)
    rw [Quoting.pass_append_of_run first, Quoting.run_append, first, same]
    exact ⟨rfl, ends⟩
  | @trimmed ts kept cs t n cut rest ih =>
    have first := run_eq_code (closed t List.mem_cons_self)
    obtain ⟨same, ends⟩ := ih fun other mem => closed other (List.mem_cons_of_mem _ mem)
    rw [cut, Quoting.run_append] at first
    -- A text that closes its literals does so before the spaces at its end, which may be cut off.
    have front := run_spaces first
    have spaces (n : Nat) : Quoting.code.pass out (List.replicate n ' ') = [] := by
      induction n with
      | zero => rfl
      | succ n ih =>
        rw [List.replicate_succ, Quoting.pass, gaps ' ' rfl]
        exact ih
    rw [Quoting.pass_append_of_run front, Quoting.run_append, front, same, List.flatMap_cons, cut,
      Quoting.pass_append_of_run front, spaces, List.append_nil]
    exact ⟨rfl, ends⟩

theorem pass_quoted (out : Quoting → Char → List Char) (f : Char → List Char)
    (plain : ∀ c, out .literal c = f c) (behind : ∀ c, out .escaped c = f c) (s : String) :
    Quoting.code.pass out (quoted s).toList =
        out .code '"' ++ (Quoted.encode s.toList ++ ['"']).flatMap f ∧
      Quoting.code.run (quoted s).toList = .code := by
  have first : Quoting.code.step '"' = .literal := rfl
  obtain ⟨same, ends⟩ := Quoting.pass_encode plain behind s.toList ['"']
  rw [quoted, String.toList_ofList, Quoting.pass, Quoting.run_cons, first, same, ends]
  refine ⟨?_, rfl⟩
  simp [Quoting.pass, plain]

/-- A literal leaves the empty one, whatever it denotes. -/
theorem skeleton_quoted (s : String) : skeleton (quoted s).toList = ['"', '"'] := by
  have inside := (pass_quoted Quoting.kept (fun _ => []) (fun _ => rfl) (fun _ => rfl) s).1
  rw [skeleton_eq_pass, inside]
  simp [Quoting.kept]

/-- A written literal is closed by its own quote. -/
theorem closesLiterals_quoted (s : String) : closesLiterals (quoted s) = true :=
  beq_iff_eq.2 (pass_quoted Quoting.kept (fun _ => []) (fun _ => rfl) (fun _ => rfl) s).2

theorem closesLiterals_of_notMem {s : String} (noQuote : '"' ∉ s.toList) :
    closesLiterals s = true := by
  have stays (cs : List Char) (noQuote : '"' ∉ cs) : Quoting.code.run cs = .code := by
    induction cs with
    | nil => rfl
    | cons c cs ih =>
      simp only [List.mem_cons, not_or] at noQuote
      rw [Quoting.run_cons, Quoting.step, if_neg (Ne.symm noQuote.1)]
      exact ih noQuote.2
  exact beq_iff_eq.2 (stays _ noQuote)

theorem closesLiterals_append {s t : String} (first : closesLiterals s = true)
    (second : closesLiterals t = true) : closesLiterals (s ++ t) = true := by
  rw [closesLiterals, String.toList_append, Quoting.run_append, run_eq_code first]
  exact second

end Mintage.Text
