import Mintage.Contract.Plan

/-! What is known of a template that is accepted, and of the shape that a contract takes from it. -/
namespace Mintage

namespace Template

variable {template : String} {tokens : List Token}

theorem parse_of_parseUri (accepted : parseUri template = .ok tokens) :
    parse template = .ok tokens := by
  unfold parseUri at accepted
  cases parsed : parse template with
  | error e =>
    rw [parsed] at accepted
    cases accepted
  | ok found =>
    rw [parsed] at accepted
    simp only [bind, Except.bind] at accepted
    split at accepted
    · cases accepted
    · cases accepted
      rfl

/-- An accepted template has no other slots than the two that are known. -/
theorem slot_of_parseUri (accepted : parseUri template = .ok tokens) {name : String}
    (mem : .slot name ∈ tokens) : name = tokenIdSlot ∨ name = parametersSlot := by
  have parsed := parse_of_parseUri accepted
  unfold parseUri at accepted
  rw [parsed] at accepted
  simp only [bind, Except.bind] at accepted
  split at accepted
  · cases accepted
  · rename_i none
    refine Decidable.byContradiction fun other => ?_
    have stranger := List.findSome?_eq_none_iff.1 none _ mem
    rw [Token.stranger?, if_neg other] at stranger
    cases stranger

theorem uri_of_parseUri (accepted : parseUri template = .ok tokens) (tokenId : Nat)
    (names : List String) :
    uri template tokenId names = .ok (fillAll (slotValue tokenId names) tokens) := by
  unfold uri
  rw [accepted]
  rfl

theorem ne_empty_of_mem_tokens {place : Place} {run : List Char} {text : String}
    (mem : .text text ∈ place.tokens run) : text ≠ "" := by
  cases run with
  | nil => cases mem
  | cons c cs =>
    have written : Token.text text ∈ [Token.text (String.ofList (c :: cs).reverse)] := by
      cases place with
      | text => exact mem
      | slot => simp [Place.tokens] at mem
    rintro rfl
    simp at written

/-- The texts between the slots are not empty. -/
theorem ne_empty_of_mem_scan {place : Place} {run cs : List Char} {text : String}
    (scanned : scan place run cs = some tokens) (mem : .text text ∈ tokens) : text ≠ "" := by
  induction place, run, cs using scan.induct generalizing tokens with
  | case1 place run =>
    cases scanned
    exact ne_empty_of_mem_tokens mem
  | case2 run cs ih =>
    obtain ⟨rest, later, rfl⟩ := Option.map_eq_some_iff.1 scanned
    rcases List.mem_append.1 mem with mem | mem
    · exact ne_empty_of_mem_tokens mem
    · exact ih later mem
  | case3 run cs => cases scanned
  | case4 run c cs notOpening notClosing ih =>
    rw [scan, if_neg notOpening, if_neg notClosing] at scanned
    exact ih scanned mem
  | case5 run cs ih =>
    obtain ⟨rest, later, rfl⟩ := Option.map_eq_some_iff.1 scanned
    rcases List.mem_append.1 mem with mem | mem
    · exact ne_empty_of_mem_tokens mem
    · exact ih later mem
  | case6 run c cs notClosing ih =>
    rw [scan, if_neg notClosing] at scanned
    exact ih scanned mem

/-- No text in an accepted template is empty. -/
theorem ne_empty_of_parseUri (accepted : parseUri template = .ok tokens) {text : String}
    (mem : .text text ∈ tokens) : text ≠ "" := by
  have parsed := parse_of_parseUri accepted
  unfold parse at parsed
  split at parsed
  · cases parsed
  · rename_i scanned
    cases parsed
    exact ne_empty_of_mem_scan scanned mem

theorem fillAll_cons (value : String → String) (token : Token) (rest : List Token) :
    fillAll value (token :: rest) = token.fill value ++ fillAll value rest := by
  simp [fillAll]

/-- Names and their values as a query, which is empty where there are none. -/
def query (entries : List (String × String)) : String :=
  if entries.isEmpty then ""
  else "?" ++ "&".intercalate (entries.map fun entry => entry.1 ++ "=" ++ entry.2)

/-- The value of a known slot for a token whose parameters have these values. -/
def knownValue (tokenId : Nat) (entries : List (String × String)) (slot : String) : String :=
  if slot = tokenIdSlot then toString tokenId else query entries

theorem intercalate_cons_eq_join (separator first : String) (rest : List String) :
    separator.intercalate (first :: rest) = first ++ String.join (rest.map (separator ++ ·)) := by
  induction rest generalizing first with
  | nil => simp
  | cons second rest ih => simp [ih, String.append_assoc]

/-- The keys of a query, each with its value behind it. -/
theorem join_queryKeys (entries : List (String × String)) :
    String.join ((queryKeys (entries.map Prod.fst)).zipWith (· ++ ·) (entries.map Prod.snd)) =
      query entries := by
  cases entries with
  | nil => rfl
  | cons first rest =>
    have later : ((rest.map Prod.fst).map fun name => "&" ++ name ++ "=").zipWith (· ++ ·)
        (rest.map Prod.snd) = (rest.map fun entry => entry.1 ++ "=" ++ entry.2).map ("&" ++ ·) := by
      rw [List.map_map, List.zipWith_map, List.zipWith_self, List.map_map]
      exact List.map_congr_left fun entry _ => by simp [String.append_assoc]
    rw [List.map_cons, List.map_cons, queryKeys, List.zipWith_cons_cons, later]
    simp [query, intercalate_cons_eq_join, String.append_assoc]

/-- For a sample, all parameters are zero. -/
theorem sampleQuery_eq_query (names : List String) :
    sampleQuery names = query (names.map (·, "0")) := by
  cases names with
  | nil => rfl
  | cons name names =>
    simp [sampleQuery, queryKeys, query, intercalate_cons_eq_join, Function.comp_def,
      String.append_assoc]

theorem slotValue_eq_knownValue (tokenId : Nat) (names : List String) :
    slotValue tokenId names = knownValue tokenId (names.map (·, "0")) := by
  funext slot
  rw [slotValue, knownValue, sampleQuery_eq_query]

end Template

namespace UriShape

open Template

theorem dropBase_sublist (tokens : List Token) : (dropBase tokens).Sublist tokens := by
  unfold dropBase
  split
  · exact List.sublist_cons_self _ _
  · exact .refl _

/-- All slots stay when the base is taken off. -/
theorem slot_mem_dropBase {name : String} {tokens : List Token} :
    .slot name ∈ dropBase tokens ↔ .slot name ∈ tokens := by
  unfold dropBase
  split <;> simp

variable {template : String} {hasParameters : Bool}

theorem parameters_of_query (shape : ofTemplate template hasParameters = .standard true) :
    hasParameters = true := by
  unfold ofTemplate at shape
  split at shape
  · cases shape
  split at shape
  · unfold ofTokens at shape
    split at shape
    · cases shape
    split at shape
    · cases shape; rfl
    · cases shape
  · cases shape

theorem tokens_of_custom {rest : List Token}
    (shape : ofTemplate template hasParameters = .custom rest) :
    ∃ tokens, parseUri template = .ok tokens ∧ rest = dropBase tokens := by
  unfold ofTemplate at shape
  split at shape
  · cases shape
  · rename_i tokens accepted
    split at shape
    · unfold ofTokens at shape
      split at shape
      · cases shape
      split at shape
      · cases shape
      · cases shape
        exact ⟨tokens, accepted, rfl⟩
    · cases shape

theorem slots_of_custom {rest : List Token}
    (shape : ofTemplate template hasParameters = .custom rest) {name : String}
    (mem : .slot name ∈ rest) : name = tokenIdSlot ∨ name = parametersSlot := by
  obtain ⟨tokens, accepted, rfl⟩ := tokens_of_custom shape
  exact slot_of_parseUri accepted ((dropBase_sublist tokens).subset mem)

variable {tokens : List Token}

/-- The shape of an accepted template is decided by its tokens behind the base. -/
theorem ofTemplate_of_parseUri (accepted : parseUri template = .ok tokens) :
    ofTemplate template hasParameters =
      if tokens.any isSlot then ofTokens hasParameters (dropBase tokens) else .fixed := by
  unfold ofTemplate
  rw [accepted]

/-- What a shape adds to the base once its slots have values. -/
def filled (value : String → String) : UriShape → String
  | fixed => ""
  | standard false => value tokenIdSlot
  | standard true => value tokenIdSlot ++ value parametersSlot
  | custom rest => fillAll value rest

/-- No shape loses a token: a query may be left out only where it is empty. -/
theorem filled_ofTokens {value : String → String}
    (unused : hasParameters = false → value parametersSlot = "") (tokens : List Token) :
    (ofTokens hasParameters tokens).filled value = fillAll value tokens := by
  unfold ofTokens
  split
  · rename_i same
    subst same
    simp [filled, fillAll, Token.fill]
  split
  · rename_i same
    subst same
    cases hasParameters with
    | true => simp [filled, fillAll, Token.fill]
    | false => simp [filled, fillAll, Token.fill, unused rfl]
  · rfl

/-- A filled template is its base and what the rest fills. -/
theorem fillAll_dropBase (accepted : parseUri template = .ok tokens) (value : String → String) :
    fillAll value tokens = leading template ++ fillAll value (dropBase tokens) := by
  have parsed := parse_of_parseUri accepted
  unfold leading dropBase
  rw [parsed]
  cases tokens with
  | nil => rfl
  | cons token rest =>
    cases token with
    | text s => exact fillAll_cons value (.text s) rest
    | slot name => exact String.empty_append.symm

/-- Behind the first of several texts in a row there is something left. -/
theorem fillAll_dropBase_eq_empty (accepted : parseUri template = .ok tokens)
    (value : String → String) (texts : tokens.any isSlot = false) :
    fillAll value (dropBase tokens) = "" ↔ tokens.length ≤ 1 := by
  have isText (token : Token) (mem : token ∈ tokens) : ∃ s, token = .text s := by
    have noSlot := List.any_eq_false.1 texts token mem
    cases token with
    | text s => exact ⟨s, rfl⟩
    | slot name => exact absurd rfl noSlot
  match tokens with
  | [] => simp [dropBase, fillAll]
  | [first] =>
    obtain ⟨s, rfl⟩ := isText first (by simp)
    simp [dropBase, fillAll]
  | first :: second :: rest =>
    obtain ⟨s, rfl⟩ := isText first (by simp)
    obtain ⟨s', rfl⟩ := isText second (by simp)
    have some : s' ≠ "" := ne_empty_of_parseUri accepted (by simp)
    constructor
    · intro empty
      rw [dropBase, fillAll_cons, String.append_eq_empty_iff] at empty
      exact absurd empty.1 some
    · intro short
      simp only [List.length_cons] at short
      omega

end UriShape

/-- What is known of the shape of the addresses of tokens: the query is of parameters, and there
are no other slots than those for a number and a query. -/
structure Plan.KnowsUri (p : Plan) : Prop where
  query : p.uriShape = .standard true → p.hasParameters = true
  slots : ∀ rest, p.uriShape = .custom rest → ∀ name, .slot name ∈ rest →
    name = Template.tokenIdSlot ∨ name = Template.parametersSlot

theorem Settings.knowsUri_plan (s : Settings) : s.plan.KnowsUri := by
  constructor
  · intro shape
    exact UriShape.parameters_of_query shape
  · intro rest shape name mem
    exact UriShape.slots_of_custom shape mem

end Mintage
