import Mintage.Proofs.Solidity.Reader

/-! The reader finds the expression in the page that is printed for it. -/
namespace Mintage.Solidity

open Layout Text

namespace Expr

/-- A text of the characters of names and numbers is told to be one or the other by its first
character. -/
theorem ofWord_of_all {s : String} (all : s.toList.all continuesName = true) (notTrue : s ≠ "true")
    (notFalse : s ≠ "false") :
    ofWord s = if s.toList.head?.any Char.isDigit then number s else ident s := by
  have plain : isPlainText s = true :=
    List.all_eq_true.2 fun c mem => isPlain_of_continuesName (List.all_eq_true.1 all c mem)
  simp only [ofWord, trim_of_isPlainText plain, if_neg notTrue, if_neg notFalse]

theorem ofWord_ident {name : String} (isName : isName name = true) (notTrue : name ≠ "true")
    (notFalse : name ≠ "false") : ofWord name = ident name := by
  obtain ⟨c, cs, chars, starts, -⟩ := exists_of_isName isName
  rw [ofWord_of_all (all_of_isName isName) notTrue notFalse, chars]
  simp [isDigit_of_startsName starts]

theorem ofWord_number {digits : String} (filled : digits ≠ "")
    (all : digits.toList.all Char.isDigit = true) : ofWord digits = number digits := by
  have other (word : String) (letters : word.toList.all Char.isDigit = false) : digits ≠ word := by
    rintro rfl
    rw [all] at letters
    cases letters
  rw [ofWord_of_all (all_continuesName_of_digits all) (other "true" (by decide))
    (other "false" (by decide))]
  cases chars : digits.toList with
  | nil => exact absurd (String.toList_eq_nil_iff.1 chars) filled
  | cons c cs =>
    rw [chars, List.all_cons, Bool.and_eq_true] at all
    simp [all.1]

theorem ofWord_bool (value : Bool) : ofWord (boolText value) = bool value := by
  have plain : isPlainText (boolText value) = true := by cases value <;> decide
  simp only [ofWord, trim_of_isPlainText plain]
  cases value <;> rfl

/-- The characters with which an expression may start. -/
def starts (c : Char) : Bool := c == '"' || c == '(' || continuesName c

theorem ne_of_starts {c d : Char} (first : starts c = true) (other : starts d = false) : c ≠ d := by
  rintro rfl
  rw [first] at other
  cases other

/-- No expression starts with a sign of an operator, so an operator ends where the next operand
begins. -/
theorem isOperatorSign_of_starts {c : Char} (first : starts c = true) :
    isOperatorSign c = false := by
  have apart : ("+-*/=<>|".toList.all fun d => !starts d) = true := by decide
  rw [isOperatorSign, List.contains_eq_mem, decide_eq_false_iff_not]
  intro mem
  have other := List.all_eq_true.1 apart c mem
  simp [first] at other

/-- The text may be that of an expression, as far as its first character tells. -/
def Begins (text : List Char) : Prop := ∃ c cs, text = c :: cs ∧ starts c = true

theorem Begins.append {text : List Char} (begins : Begins text) (more : List Char) :
    Begins (text ++ more) := by
  obtain ⟨c, cs, rfl, first⟩ := begins
  exact ⟨c, cs ++ more, rfl, first⟩

theorem begins_of_all {s : String} (filled : s ≠ "") (all : s.toList.all continuesName = true) :
    Begins s.toList := by
  cases chars : s.toList with
  | nil => exact absurd (String.toList_eq_nil_iff.1 chars) filled
  | cons c cs =>
    rw [chars, List.all_cons, Bool.and_eq_true] at all
    exact ⟨c, cs, rfl, by simp [starts, all.1]⟩

/-- How an operator is written. -/
theorem signs_of_mem {operator : String} (known : operator ∈ binaryOperators ++ assignments) :
    isInked operator = true ∧ operator.toList.all isOperatorSign = true ∧ operator ≠ "" := by
  have each : ∀ operator ∈ binaryOperators ++ assignments,
      isInked operator = true ∧ operator.toList.all isOperatorSign = true ∧ operator ≠ "" := by
    decide
  exact each operator known

/-- What is left of an expression starts with a word, a literal or a parenthesis. -/
theorem begins_dense : ∀ e : Expr, e.isReadable = true → Begins e.dense
  | ident name, readable => by
    simp only [isReadable, Bool.and_eq_true] at readable
    have name := readable.1.1
    rw [dense_ident (isInked_of_isName name)]
    exact begins_of_all (ne_empty_of_isName name) (all_of_isName name)
  | number digits, readable => by
    simp only [isReadable, Bool.and_eq_true, Bool.not_eq_true', String.isEmpty_eq_false_iff]
      at readable
    have all := all_continuesName_of_digits readable.2
    rw [dense_number (isInked_of_all all)]
    exact begins_of_all readable.1 all
  | string value, _ => ⟨'"', _, by rw [dense_string, quoted, String.toList_ofList], rfl⟩
  | bool value, _ => by
    rw [dense_bool]
    cases value <;> exact ⟨_, _, rfl, rfl⟩
  | member object name, readable => by
    simp only [isReadable, Bool.and_eq_true] at readable
    rw [dense_member object (isInked_of_isName readable.2)]
    exact (begins_dense object readable.1.1).append _
  | index object key, readable => by
    simp only [isReadable, Bool.and_eq_true] at readable
    rw [dense_index]
    exact (begins_dense object readable.1.1).append _
  | call callee arguments, readable => by
    simp only [isReadable, Bool.and_eq_true] at readable
    rw [dense_call]
    exact (begins_dense callee readable.1.1).append _
  | callNamed callee arguments, readable => by
    simp only [isReadable, Bool.and_eq_true, namedReadable_iff] at readable
    rw [dense_callNamed callee fun a mem => isInked_of_isName (readable.2 a mem).1]
    exact (begins_dense callee readable.1.1).append _
  | assign target operator value, readable => by
    simp only [isReadable, Bool.and_eq_true, List.contains_iff_mem] at readable
    have inked := (signs_of_mem (List.mem_append_right binaryOperators readable.1.2)).1
    rw [dense_assign target value inked]
    exact (begins_dense target readable.1.1.1).append _
  | binary left operator right, readable => by
    simp only [isReadable, Bool.and_eq_true, List.contains_iff_mem] at readable
    have inked := (signs_of_mem (List.mem_append_left assignments readable.1.2)).1
    rw [dense_binary left right inked, denseOperand]
    refine Begins.append ?_ _
    split
    · exact ⟨'(', _, rfl, rfl⟩
    · exact begins_dense left readable.1.1

theorem begins_denseOperand {e : Expr} (readable : e.isReadable = true) :
    Begins e.denseOperand := by
  unfold denseOperand
  split
  · exact ⟨'(', _, rfl, rfl⟩
  · exact e.begins_dense readable

end Expr

/-- The reader finds all expressions of this size, unless more characters of them follow. -/
def Reads (inner : Reader Expr) (fuel : Nat) : Prop :=
  ∀ e : Expr, e.isReadable = true → sizeOf e ≤ fuel → ∀ rest, Stops extendsExpr rest →
    inner (e.dense ++ rest) = some (e, rest)

theorem extendsExpr_of_extendsOperand {c : Char} (more : extendsOperand c = true) :
    extendsExpr c = true := by
  rw [extendsExpr, more, Bool.true_or]

theorem extendsOperand_of_continuesName {c : Char} (more : continuesName c = true) :
    extendsOperand c = true := by
  simp [extendsOperand, more]

theorem extendsExpr_of_isOperatorSign {c : Char} (sign : isOperatorSign c = true) :
    extendsExpr c = true := by
  rw [extendsExpr, sign, Bool.or_true]

namespace Reader

open Mintage.Solidity.Expr

variable {inner : Reader Expr} {fuel n : Nat} {e : Expr} {rest : List Char}

theorem suffixes_of_stops (stops : Stops extendsOperand rest) :
    suffixes inner fuel n e rest = some (e, rest) := by
  cases n with
  | zero => rfl
  | succ n =>
    cases rest with
    | nil => rfl
    | cons c rest =>
      have other := stops c rfl
      simp only [extendsOperand, Bool.or_eq_false_iff, beq_eq_false_iff_ne] at other
      rw [suffixes, if_neg other.1.1.2, if_neg other.1.2, if_neg other.2]

/-- The reader takes up one suffix and goes on behind it; the same holds of the other kinds. -/
theorem suffixes_member {name : String} (isName : isName name = true)
    (stops : Stops continuesName rest) :
    suffixes inner fuel (n + 1) e ('.' :: (name.toList ++ rest)) =
      suffixes inner fuel n (.member e name) rest := by
  have all := all_of_isName isName
  rw [suffixes, if_pos rfl, stops.takeWhile all, stops.dropWhile all, String.ofList_toList]

theorem suffixes_index (reads : Reads inner fuel) {key : Expr} (readable : key.isReadable = true)
    (small : sizeOf key ≤ fuel) :
    suffixes inner fuel (n + 1) e ('[' :: (key.dense ++ ']' :: rest)) =
      suffixes inner fuel n (.index e key) rest := by
  have read := closed_of_eq (reads key readable small (']' :: rest) (.cons rfl rest))
  rw [suffixes, if_neg (by decide), if_pos rfl, read]
  rfl

/-- Behind an argument stands a comma or the closing bracket, and neither goes on with the
argument. -/
theorem follows_item {closing : Char} (stops : extendsExpr closing = false) {more : List Char}
    (follows : more = closing :: rest ∨ more.head? = some ',') : Stops extendsExpr more := by
  rcases follows with rfl | comma
  · exact .cons stops rest
  · intro c first
    rw [comma] at first
    cases first
    rfl

theorem length_le_sizeOf {α : Type} [SizeOf α] (xs : List α) : xs.length ≤ sizeOf xs := by
  induction xs with
  | nil => simp
  | cons x xs ih =>
    simp only [List.length_cons, List.cons.sizeOf_spec]
    omega

theorem suffixes_call (reads : Reads inner fuel) {arguments : List Expr}
    (readable : ∀ a ∈ arguments, a.isReadable = true) (small : sizeOf arguments ≤ fuel) :
    suffixes inner fuel (n + 1) e
        ('(' :: ([','].intercalate (arguments.map Expr.dense) ++ ')' :: rest)) =
      suffixes inner fuel n (.call e arguments) rest := by
  have first {d : Char} (other : Expr.starts d = false) :
      ∀ a ∈ arguments, ∃ c cs, a.dense = c :: cs ∧ c ≠ d := by
    intro a mem
    obtain ⟨c, cs, same, starts⟩ := a.begins_dense (readable a mem)
    exact ⟨c, cs, same, ne_of_starts starts other⟩
  have read : list inner ')' fuel ([','].intercalate (arguments.map Expr.dense) ++ ')' :: rest) =
      some (arguments, rest) := by
    refine list_intercalate (by decide) ((length_le_sizeOf arguments).trans small) (first rfl) ?_
    intro a mem more follows
    have smaller := List.sizeOf_lt_of_mem mem
    exact reads a (readable a mem) (by omega) more (follows_item rfl follows)
  have notBrace : ([','].intercalate (arguments.map Expr.dense) ++ ')' :: rest).head? ≠
      some '\x7b' := head?_intercalate_ne (fun _ => by simp) (first rfl)
  rw [suffixes, if_neg (by decide), if_neg (by decide), if_pos rfl, if_neg notBrace, read]
  rfl

theorem suffixes_callNamed (reads : Reads inner fuel) {arguments : List (String × Expr)}
    (readable : ∀ a ∈ arguments, isName a.1 = true ∧ a.2.isReadable = true)
    (small : sizeOf arguments ≤ fuel) :
    suffixes inner fuel (n + 1) e
        ('(' :: '\x7b' ::
          ([','].intercalate (arguments.map fun a => a.1.toList ++ ':' :: a.2.dense) ++
            '\x7d' :: ')' :: rest)) =
      suffixes inner fuel n (.callNamed e arguments) rest := by
  have read : list (named inner) '\x7d' fuel
      ([','].intercalate (arguments.map fun a => a.1.toList ++ ':' :: a.2.dense) ++
        '\x7d' :: ')' :: rest) = some (arguments, ')' :: rest) := by
    refine list_intercalate (by decide) ((length_le_sizeOf arguments).trans small) ?_ ?_
    · intro a mem
      have name := (readable a mem).1
      obtain ⟨c, cs, same, starts⟩ := begins_of_all (ne_empty_of_isName name) (all_of_isName name)
      exact ⟨c, _, by rw [same]; rfl, ne_of_starts starts rfl⟩
    · rintro ⟨name, value⟩ mem more follows
      obtain ⟨isName, valued⟩ := readable _ mem
      have smaller := List.sizeOf_lt_of_mem mem
      rw [Prod.mk.sizeOf_spec] at smaller
      have found := reads value valued (by omega) more (follows_item rfl follows)
      have whole := named_append (all_of_isName isName) found
      rwa [List.append_assoc, List.cons_append]
  rw [suffixes, if_neg (by decide), if_neg (by decide), if_pos rfl, List.head?_cons,
    if_pos rfl, List.tail_cons, closed_of_eq read]
  rfl

end Reader

namespace Expr

theorem sizeOf_pos (e : Expr) : 0 < sizeOf e :=
  Nat.pos_of_ne_zero (by cases e <;> simp)

/-- The suffixes of an expression that is no operation. -/
def spine : Expr → Nat
  | member object _ => object.spine + 1
  | index object _ => object.spine + 1
  | call callee _ => callee.spine + 1
  | callNamed callee _ => callee.spine + 1
  | _ => 0

/-- The size of an expression is fuel enough for its suffixes. -/
theorem spine_lt_sizeOf : ∀ e : Expr, e.spine < sizeOf e
  | ident _ | number _ | string _ | bool _ | assign .. | binary .. => sizeOf_pos _
  | member object name => by
    have inside := spine_lt_sizeOf object
    simp only [spine, member.sizeOf_spec]
    omega
  | index object key => by
    have inside := spine_lt_sizeOf object
    simp only [spine, index.sizeOf_spec]
    omega
  | call callee arguments => by
    have inside := spine_lt_sizeOf callee
    simp only [spine, call.sizeOf_spec]
    omega
  | callNamed callee arguments => by
    have inside := spine_lt_sizeOf callee
    simp only [spine, callNamed.sizeOf_spec]
    omega

end Expr

namespace Reader

open Mintage.Solidity.Expr

variable {inner : Reader Expr} {fuel n : Nat} {rest : List Char}

theorem operand_word {word : String} (filled : word ≠ "")
    (all : word.toList.all continuesName = true) (stops : Stops continuesName rest) :
    operand inner fuel n (word.toList ++ rest) = suffixes inner fuel n (.ofWord word) rest := by
  obtain ⟨c, cs, chars, -⟩ := begins_of_all filled all
  have first : continuesName c = true := by
    rw [chars, List.all_cons, Bool.and_eq_true] at all
    exact all.1
  have notParen : c ≠ '(' := by
    rintro rfl
    cases first
  have notQuote : c ≠ '"' := by
    rintro rfl
    cases first
  have front : (word.toList ++ rest).head? = some c := by rw [chars]; rfl
  rw [operand, front, if_neg (by simpa using notParen), if_neg (by simpa using notQuote),
    stops.takeWhile all, stops.dropWhile all, String.ofList_toList]

theorem operand_string (value : String) :
    operand inner fuel n ((quoted value).toList ++ rest) =
      suffixes inner fuel n (.string value) rest := by
  have chars : (quoted value).toList ++ rest =
      '"' :: (Quoted.encode value.toList ++ '"' :: rest) := by simp [quoted]
  rw [chars, operand, List.head?_cons, if_neg (by decide), if_pos rfl, List.tail_cons,
    Quoted.decode_encode]
  simp

/-- The reader goes on from an object to a suffix of it. -/
theorem operand_suffix {object e : Expr} {suffix : List Char}
    (spine : e.spine = object.spine + 1) (dense : e.dense = object.dense ++ suffix)
    (front : operand inner fuel (n + 1 + object.spine) (object.dense ++ (suffix ++ rest)) =
      suffixes inner fuel (n + 1) object (suffix ++ rest))
    (step : suffixes inner fuel (n + 1) object (suffix ++ rest) = suffixes inner fuel n e rest) :
    operand inner fuel (n + e.spine) (e.dense ++ rest) = suffixes inner fuel n e rest := by
  have count : n + e.spine = n + 1 + object.spine := by omega
  rw [count, dense, List.append_assoc, front, step]

/-- Of an expression that is no operation the reader takes all suffixes, one after the other. -/
theorem operand_dense (reads : Reads inner fuel) : ∀ e : Expr, e.isReadable = true →
    e.isCompound = false → sizeOf e ≤ fuel + 1 → ∀ n rest, Stops continuesName rest →
    operand inner fuel (n + e.spine) (e.dense ++ rest) = suffixes inner fuel n e rest
  | .ident name, readable, _, _, n, rest, stops => by
    simp only [isReadable, Bool.and_eq_true, bne_iff_ne] at readable
    obtain ⟨⟨isName, notTrue⟩, notFalse⟩ := readable
    rw [dense_ident (isInked_of_isName isName),
      operand_word (ne_empty_of_isName isName) (all_of_isName isName) stops,
      ofWord_ident isName notTrue notFalse]
    rfl
  | .number digits, readable, _, _, n, rest, stops => by
    simp only [isReadable, Bool.and_eq_true, Bool.not_eq_true', String.isEmpty_eq_false_iff]
      at readable
    have all := all_continuesName_of_digits readable.2
    rw [dense_number (isInked_of_all all), operand_word readable.1 all stops,
      ofWord_number readable.1 readable.2]
    rfl
  | .string value, _, _, _, n, rest, _ => by
    rw [dense_string, operand_string]
    rfl
  | .bool value, _, _, _, n, rest, stops => by
    have word : boolText value ≠ "" ∧ (boolText value).toList.all continuesName = true := by
      cases value <;> decide
    rw [dense_bool, operand_word word.1 word.2 stops, ofWord_bool]
    rfl
  | .member object name, readable, _, small, n, rest, stops => by
    simp only [isReadable, Bool.and_eq_true, Bool.not_eq_true'] at readable
    obtain ⟨⟨inside, simple⟩, isName⟩ := readable
    rw [member.sizeOf_spec] at small
    refine operand_suffix rfl (dense_member object (isInked_of_isName isName)) ?_ ?_
    · exact operand_dense reads object inside simple (by omega) (n + 1) _ (.cons rfl _)
    · exact suffixes_member isName stops
  | .index object key, readable, _, small, n, rest, _ => by
    simp only [isReadable, Bool.and_eq_true, Bool.not_eq_true'] at readable
    obtain ⟨⟨inside, simple⟩, keyed⟩ := readable
    rw [index.sizeOf_spec] at small
    refine operand_suffix rfl (dense_index object key) ?_ ?_
    · exact operand_dense reads object inside simple (by omega) (n + 1) _ (.cons rfl _)
    · have positive := sizeOf_pos object
      rw [List.cons_append, List.append_assoc]
      exact suffixes_index reads keyed (by omega)
  | .call callee arguments, readable, _, small, n, rest, _ => by
    simp only [isReadable, Bool.and_eq_true, Bool.not_eq_true', allReadable_iff] at readable
    obtain ⟨⟨inside, simple⟩, each⟩ := readable
    rw [call.sizeOf_spec] at small
    refine operand_suffix rfl (dense_call callee arguments) ?_ ?_
    · exact operand_dense reads callee inside simple (by omega) (n + 1) _ (.cons rfl _)
    · rw [List.cons_append, List.append_assoc]
      exact suffixes_call reads each (by omega)
  | .callNamed callee arguments, readable, _, small, n, rest, _ => by
    simp only [isReadable, Bool.and_eq_true, Bool.not_eq_true', namedReadable_iff] at readable
    obtain ⟨⟨inside, simple⟩, each⟩ := readable
    have inked := fun a mem => isInked_of_isName (each a mem).1
    rw [callNamed.sizeOf_spec] at small
    refine operand_suffix rfl (dense_callNamed callee inked) ?_ ?_
    · exact operand_dense reads callee inside simple (by omega) (n + 1) _ (.cons rfl _)
    · rw [List.cons_append, List.cons_append, List.append_assoc]
      exact suffixes_callNamed reads each (by omega)

theorem operand_of_stops (reads : Reads inner fuel) {e : Expr} (readable : e.isReadable = true)
    (simple : e.isCompound = false) (small : sizeOf e ≤ fuel + 1)
    (stops : Stops extendsOperand rest) :
    operand inner fuel fuel (e.dense ++ rest) = some (e, rest) := by
  have short := e.spine_lt_sizeOf
  obtain ⟨n, count⟩ : ∃ n, fuel = n + e.spine := ⟨fuel - e.spine, by omega⟩
  have read := operand_dense reads e readable simple small n rest
    (stops.mono fun _ => extendsOperand_of_continuesName)
  rw [← count] at read
  rw [read, suffixes_of_stops stops]

/-- An operation is an operand only in parentheses, which the reader takes off. -/
theorem operand_denseOperand (reads : Reads inner fuel) {e : Expr} (readable : e.isReadable = true)
    (small : sizeOf e ≤ fuel) (stops : Stops extendsOperand rest) :
    operand inner fuel fuel (e.denseOperand ++ rest) = some (e, rest) := by
  unfold denseOperand
  split
  · have read := closed_of_eq (reads e readable small (')' :: rest) (.cons rfl rest))
    rw [operand, List.cons_append, List.head?_cons, if_pos rfl, List.tail_cons, List.append_assoc]
    exact read
  · rename_i simple
    exact operand_of_stops reads readable (by simpa using simple) (by omega) stops

/-- No operand goes on with the sign of an operator. -/
theorem stops_signs {signs : String} (all : signs.toList.all isOperatorSign = true)
    (filled : signs ≠ "") (more : List Char) : Stops extendsOperand (signs.toList ++ more) := by
  have apart : ("+-*/=<>|".toList.all fun d => !extendsOperand d) = true := by decide
  cases chars : signs.toList with
  | nil => exact absurd (String.toList_eq_nil_iff.1 chars) filled
  | cons c cs =>
    rw [chars, List.all_cons, Bool.and_eq_true] at all
    have other := List.all_eq_true.1 apart c (List.contains_iff_mem.1 all.1)
    exact .cons (by simpa using other) _

/-- What stands behind an operator ends it. -/
theorem operator_signs {signs : String} (known : signs ∈ binaryOperators ++ assignments)
    {text : List Char} (begins : Begins text) (more : List Char) (operators : List String) :
    operator operators (signs.toList ++ (text ++ more)) =
      if signs ∈ operators then some (signs, text ++ more) else none := by
  obtain ⟨c, cs, same, first⟩ := begins
  refine operator_append (signs_of_mem known).2.1 ?_ operators
  rw [same]
  exact .cons (isOperatorSign_of_starts first) _

/-- Whatever stands in front of an assignment is read up to the sign. -/
theorem side_dense (reads : Reads inner fuel) {e : Expr} (readable : e.isReadable = true)
    (notAssign : e.isAssign = false) (small : sizeOf e ≤ fuel + 1)
    (stops : Stops extendsOperand rest) (noOperator : operator binaryOperators rest = none) :
    side inner fuel (e.dense ++ rest) = some (e, rest) := by
  by_cases simple : e.isCompound = false
  · rw [side, operand_of_stops reads readable simple small stops]
    simp [noOperator]
  -- Behind the second operand the reader does not look for an operator any more.
  · cases e with
    | binary left sign right =>
      simp only [isReadable, Bool.and_eq_true, List.contains_iff_mem] at readable
      obtain ⟨⟨ofLeft, known⟩, ofRight⟩ := readable
      have listed := List.mem_append_left assignments known
      obtain ⟨inked, all, filled⟩ := signs_of_mem listed
      rw [binary.sizeOf_spec] at small
      have first := operand_denseOperand reads ofLeft (by omega)
        (stops_signs all filled (right.denseOperand ++ rest))
      have second := operator_signs listed (begins_denseOperand ofRight) rest binaryOperators
      have third := operand_denseOperand reads ofRight (by omega) stops
      rw [if_pos known] at second
      rw [side, dense_binary left right inked, List.append_assoc, List.append_assoc, first,
        Option.bind_some, second]
      simp [third]
    | assign => cases notAssign
    | _ => exact absurd rfl simple

/-- An assignment is tried last, when a side has been read and its operator follows. -/
theorem whole_dense (reads : Reads inner fuel) {e : Expr} (readable : e.isReadable = true)
    (small : sizeOf e ≤ fuel + 1) (stops : Stops extendsExpr rest) :
    whole inner fuel (e.dense ++ rest) = some (e, rest) := by
  have noSign : Stops isOperatorSign rest := stops.mono fun _ => extendsExpr_of_isOperatorSign
  cases assigns : e.isAssign with
  -- Where no sign follows, neither a second operand nor a value is looked for.
  | false =>
    have read := side_dense reads readable assigns small
      (stops.mono fun _ => extendsExpr_of_extendsOperand) (operator_of_stops noSign (by decide))
    rw [whole, read]
    simp [operator_of_stops noSign (show "" ∉ assignments by decide)]
  -- The sign of an assignment is no operator, so that the target ends in front of it.
  | true =>
    cases e with
    | assign target sign value =>
      simp only [isReadable, Bool.and_eq_true, Bool.not_eq_true', List.contains_iff_mem] at readable
      obtain ⟨⟨⟨ofTarget, notAssign⟩, known⟩, ofValue⟩ := readable
      have listed := List.mem_append_right binaryOperators known
      obtain ⟨inked, all, filled⟩ := signs_of_mem listed
      have other : sign ∉ binaryOperators := by
        have apart : ∀ sign ∈ assignments, sign ∉ binaryOperators := by decide
        exact apart sign known
      rw [assign.sizeOf_spec] at small
      have sign := operator_signs listed (value.begins_dense ofValue) rest
      have first := side_dense reads ofTarget notAssign (by omega)
        (stops_signs all filled (value.dense ++ rest)) (by rw [sign, if_neg other])
      have second := sign assignments
      have third := reads value ofValue (by omega) rest stops
      rw [if_pos known] at second
      rw [whole, dense_assign target value inked, List.append_assoc, List.append_assoc, first,
        Option.bind_some, second]
      simp [third]
    | _ => cases assigns

end Reader

namespace Expr

/-- With enough fuel every expression is found at the start of a text that begins with it. -/
theorem reads_read (fuel : Nat) : Reads (read fuel) fuel := by
  induction fuel with
  | zero =>
    intro e _ small
    exact absurd e.sizeOf_pos (by omega)
  | succ fuel ih =>
    intro e readable small rest stops
    exact Reader.whole_dense ih readable small stops

mutual

/-- The texts of a readable expression hold neither gaps nor quotes, so that deleting gaps leaves
them whole. -/
theorem inked_pieces : ∀ e : Expr, e.isReadable = true → ∀ piece ∈ e.pieces, isInked piece.2 = true
  | ident name, readable => by
    simp only [isReadable, Bool.and_eq_true] at readable
    simpa [pieces] using isInked_of_isName readable.1.1
  | number digits, readable => by
    simp only [isReadable, Bool.and_eq_true] at readable
    simpa [pieces] using isInked_of_all (all_continuesName_of_digits readable.2)
  | string _, _ => nofun
  | bool _, _ => nofun
  | member object name, readable => by
    simp only [isReadable, Bool.and_eq_true] at readable
    exact List.forall_mem_append.2 ⟨inked_pieces object readable.1.1,
      List.forall_mem_singleton.2 (isInked_of_isName readable.2)⟩
  | index object key, readable => by
    simp only [isReadable, Bool.and_eq_true] at readable
    exact List.forall_mem_append.2 ⟨inked_pieces object readable.1.1, inked_pieces key readable.2⟩
  | call callee arguments, readable => by
    simp only [isReadable, Bool.and_eq_true] at readable
    exact List.forall_mem_append.2 ⟨inked_pieces callee readable.1.1,
      inked_allPieces arguments readable.2⟩
  | callNamed callee arguments, readable => by
    simp only [isReadable, Bool.and_eq_true] at readable
    exact List.forall_mem_append.2 ⟨inked_pieces callee readable.1.1,
      inked_namedPieces arguments readable.2⟩
  | assign target operator value, readable => by
    simp only [isReadable, Bool.and_eq_true, List.contains_iff_mem] at readable
    have sign := (signs_of_mem (List.mem_append_right binaryOperators readable.1.2)).1
    exact List.forall_mem_append.2 ⟨inked_pieces target readable.1.1.1,
      List.forall_mem_cons.2 ⟨sign, inked_pieces value readable.2⟩⟩
  | binary left operator right, readable => by
    simp only [isReadable, Bool.and_eq_true, List.contains_iff_mem] at readable
    have sign := (signs_of_mem (List.mem_append_left assignments readable.1.2)).1
    exact List.forall_mem_append.2 ⟨inked_pieces left readable.1.1,
      List.forall_mem_cons.2 ⟨sign, inked_pieces right readable.2⟩⟩

theorem inked_allPieces : ∀ es : List Expr, allReadable es = true →
    ∀ piece ∈ allPieces es, isInked piece.2 = true
  | [], _ => nofun
  | e :: es, readable => by
    simp only [allReadable, Bool.and_eq_true] at readable
    exact List.forall_mem_append.2 ⟨inked_pieces e readable.1, inked_allPieces es readable.2⟩

theorem inked_namedPieces : ∀ es : List (String × Expr), namedReadable es = true →
    ∀ piece ∈ namedPieces es, isInked piece.2 = true
  | [], _ => nofun
  | (name, e) :: es, readable => by
    simp only [namedReadable, Bool.and_eq_true] at readable
    exact List.forall_mem_cons.2 ⟨isInked_of_isName readable.1.1,
      List.forall_mem_append.2 ⟨inked_pieces e readable.1.2, inked_namedPieces es readable.2⟩⟩

end

/-- The reader finds an expression in the page that is printed for it, whatever its width. -/
theorem read_render {e : Expr} (readable : e.isReadable = true) {fuel : Nat}
    (enough : sizeOf e ≤ fuel) (width : Nat) :
    read fuel (Text.dense (e.doc.render width).toList) = some (e, []) := by
  have read := reads_read fuel e readable enough [] (.nil _)
  rw [List.append_nil] at read
  rw [dense_render (inked_pieces e readable) width]
  exact read

/-- Expressions whose parts are legal are the same if they are printed alike. -/
theorem print_injective {e f : Expr} (readable : e.isReadable = true)
    (readable' : f.isReadable = true) (same : e.print = f.print) : e = f := by
  have first : read (sizeOf e + sizeOf f) (Text.dense e.print.toList) = some (e, []) :=
    read_render readable (by omega) pageWidth
  have second : read (sizeOf e + sizeOf f) (Text.dense f.print.toList) = some (f, []) :=
    read_render readable' (by omega) pageWidth
  rw [same, second] at first
  exact (Prod.mk.inj (Option.some.inj first)).1.symm

/-- `total = (price - 1) * rates[id].of("\" - (", true)`, where a literal holds signs. -/
def sampleReadable : Expr :=
  .set (.ident "total")
    (.binary (.binary (.ident "price") "-" (.number "1")) "*"
      (.method (.index (.ident "rates") (.ident "id")) "of" [.string "\" - (", .bool true]))

theorem print_injective_sampleReadable :
    sampleReadable.print = "total = (price - 1) * rates[id].of(\"\\\" - (\", true)" ∧
      sampleReadable = .assign (.ident "total") "="
        (.binary (.binary (.ident "price") "-" (.nat 1)) "*"
          (.call (.member (.index (.ident "rates") (.ident "id")) "of")
            [.string "\" - (", .bool true])) :=
  ⟨by decide, print_injective (by decide) (by decide) (by decide)⟩

end Expr

end Mintage.Solidity
