/-! String literals: a quote, a backslash and a line feed are written as escapes. -/
namespace Mintage.Text.Quoted

/-- The escapes, each with the character that it stands for. -/
def escape : Char → List Char
  | '"' => ['\\', '"']
  | '\\' => ['\\', '\\']
  | '\n' => ['\\', 'n']
  | c => [c]

def encode (cs : List Char) : List Char := cs.flatMap escape

@[simp] theorem encode_nil : encode [] = [] := rfl

@[simp] theorem encode_cons (c : Char) (cs : List Char) :
    encode (c :: cs) = escape c ++ encode cs := rfl

/-- A character stays as it is, or a backslash stands in front of another. -/
theorem escape_cases (c : Char) :
    (∃ d, escape c = ['\\', d]) ∨ c ≠ '"' ∧ c ≠ '\\' ∧ escape c = [c] := by
  by_cases quote : c = '"'
  · exact .inl ⟨'"', by rw [quote]; rfl⟩
  by_cases slash : c = '\\'
  · exact .inl ⟨'\\', by rw [slash]; rfl⟩
  by_cases feed : c = '\n'
  · exact .inl ⟨'n', by rw [feed]; rfl⟩
  · refine .inr ⟨quote, slash, ?_⟩
    unfold escape
    split <;> simp_all

/-- The value of a literal up to its closing quote, and what follows that quote. -/
def decode : List Char → Option (List Char × List Char)
  | [] => none
  | '"' :: rest => some ([], rest)
  | '\\' :: 'n' :: rest => (decode rest).map fun d => ('\n' :: d.1, d.2)
  | '\\' :: c :: rest => (decode rest).map fun d => (c :: d.1, d.2)
  | c :: rest => (decode rest).map fun d => (c :: d.1, d.2)

theorem decode_encode (cs rest : List Char) :
    decode (encode cs ++ '"' :: rest) = some (cs, rest) := by
  induction cs with
  | nil => rfl
  | cons c cs ih =>
    by_cases hq : c = '"'
    · subst hq; simp [escape, decode, ih]
    by_cases hb : c = '\\'
    · subst hb; simp [escape, decode, ih]
    by_cases hn : c = '\n'
    · subst hn; simp [escape, decode, ih]
    · have he : escape c = [c] := by
        unfold escape; split <;> simp_all
      simp only [encode_cons, he, List.cons_append, List.nil_append]
      unfold decode; split <;> simp_all

end Mintage.Text.Quoted

namespace Mintage.Text

/-- The literal that denotes a text. -/
def quoted (s : String) : String :=
  String.ofList ('"' :: (Quoted.encode s.toList ++ ['"']))

end Mintage.Text
