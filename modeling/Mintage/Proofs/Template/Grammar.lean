import Mintage.Template.Token

/-! The grammar of templates, as expressions that take a text from its start: a choice tries its
sides in their order, a repetition takes as much as it can, and neither goes back. Every text has
exactly one reading in it. -/
namespace Mintage.Template

/-- The rules whose parts of a text stand in its reading. -/
inductive Rule where
  | template
  | content
  | slot
  | name
  deriving DecidableEq, Repr

/-- The part of a text that a rule has taken, with the parts inside it. -/
inductive Reading where
  | of (rule : Rule) (text : List Char) (inner : List Reading)

inductive Peg where
  | any
  | char (c : Char)
  | ended
  | both (first second : Peg)
  | either (first second : Peg)
  | many (item : Peg)
  /-- The expression would succeed, but takes nothing. -/
  | present (inner : Peg)
  /-- The expression would fail. -/
  | absent (inner : Peg)
  | rule (rule : Rule) (inner : Peg)

namespace Peg

/-- On a text an expression fails, or it takes a part of it and leaves readings and the rest. -/
inductive Takes : Peg → List Char → Option (List Reading × List Char) → Prop
  | any {c cs} : Takes .any (c :: cs) (some ([], cs))
  | anyEnd : Takes .any [] none
  | char {c cs} : Takes (.char c) (c :: cs) (some ([], cs))
  | charOther {c d cs} (other : d ≠ c) : Takes (.char c) (d :: cs) none
  | charEnd {c} : Takes (.char c) [] none
  | ended : Takes .ended [] (some ([], []))
  | endedNot {c cs} : Takes .ended (c :: cs) none
  | both {p q cs ds r ns ms} : Takes p cs (some (ns, ds)) → Takes q ds (some (ms, r)) →
    Takes (.both p q) cs (some (ns ++ ms, r))
  | bothFirst {p q cs} : Takes p cs none → Takes (.both p q) cs none
  | bothSecond {p q cs ds ns} : Takes p cs (some (ns, ds)) → Takes q ds none →
    Takes (.both p q) cs none
  | either {p q cs r} : Takes p cs (some r) → Takes (.either p q) cs (some r)
  | eitherOther {p q cs r} : Takes p cs none → Takes q cs r → Takes (.either p q) cs r
  | many {p cs ds r ns ms} : Takes p cs (some (ns, ds)) → Takes (.many p) ds (some (ms, r)) →
    Takes (.many p) cs (some (ns ++ ms, r))
  | manyEnd {p cs} : Takes p cs none → Takes (.many p) cs (some ([], cs))
  | present {p cs r} : Takes p cs (some r) → Takes (.present p) cs (some ([], cs))
  | presentNot {p cs} : Takes p cs none → Takes (.present p) cs none
  | absent {p cs} : Takes p cs none → Takes (.absent p) cs (some ([], cs))
  | absentNot {p cs r} : Takes p cs (some r) → Takes (.absent p) cs none
  | rule {rule p cs text r ns} : Takes p cs (some (ns, r)) → cs = text ++ r →
    Takes (.rule rule p) cs (some ([.of rule text ns], r))
  | ruleNot {rule p cs} : Takes p cs none → Takes (.rule rule p) cs none

/-- An expression does one thing with a text. -/
theorem Takes.unique {p : Peg} {cs : List Char} {r r' : Option (List Reading × List Char)}
    (takes : p.Takes cs r) (others : p.Takes cs r') : r = r' := by
  -- By induction on one derivation. The other one ends with the same rule, or its first step that
  -- differs is refuted by the induction hypothesis for the part.
  induction takes generalizing r' with
  | any => cases others; rfl
  | anyEnd => cases others; rfl
  | char =>
    cases others with
    | char => rfl
    | charOther other => exact absurd rfl other
  | charOther other =>
    cases others with
    | char => exact absurd rfl other
    | charOther => rfl
  | charEnd => cases others; rfl
  | ended => cases others; rfl
  | endedNot => cases others; rfl
  | both _ _ first second =>
    cases others with
    | both one two =>
      cases first one
      cases second two
      rfl
    | bothFirst one => cases first one
    | bothSecond one two =>
      cases first one
      cases second two
  | bothFirst _ first =>
    cases others with
    | both one _ => cases first one
    | bothFirst => rfl
    | bothSecond one _ => cases first one
  | bothSecond _ _ first second =>
    cases others with
    | both one two =>
      cases first one
      cases second two
    | bothFirst => rfl
    | bothSecond => rfl
  | either _ first =>
    cases others with
    | either one => exact first one
    | eitherOther one _ => cases first one
  | eitherOther _ _ first second =>
    cases others with
    | either one => cases first one
    | eitherOther _ two => exact second two
  | many _ _ item more =>
    cases others with
    | many one two =>
      cases item one
      cases more two
      rfl
    | manyEnd one => cases item one
  | manyEnd _ item =>
    cases others with
    | many one _ => cases item one
    | manyEnd => rfl
  | present _ inner =>
    cases others with
    | present => rfl
    | presentNot one => cases inner one
  | presentNot _ inner =>
    cases others with
    | present one => cases inner one
    | presentNot => rfl
  | absent _ inner =>
    cases others with
    | absent => rfl
    | absentNot one => cases inner one
  | absentNot _ inner =>
    cases others with
    | absent one => cases inner one
    | absentNot => rfl
  | rule _ split inner =>
    cases others with
    | rule one same =>
      cases inner one
      rw [List.append_cancel_right (split.symm.trans same)]
    | ruleNot one => cases inner one
  | ruleNot _ inner =>
    cases others with
    | rule one => cases inner one
    | ruleNot => rfl

/-- One character other than a given one. -/
def other (c : Char) : Peg := .both (.absent (.char c)) .any

def content : Peg := .rule .content (.both (other '{') (.many (other '{')))

def name : Peg := .rule .name (.many (other '}'))

/-- A slot that the end of the text leaves open is closed there. -/
def slot : Peg :=
  .rule .slot (.both (.char '{') (.both name (.either (.char '}') (.present .ended))))

/-- The parts of a template. -/
def parts : Peg := .many (.either slot content)

def template : Peg := .rule .template (.both parts .ended)

variable {c d : Char} {cs rest text : List Char}

theorem takes_other (differs : d ≠ c) : (other c).Takes (d :: cs) (some ([], cs)) :=
  .both (.absent (.charOther differs)) .any

theorem other_fails (stops : ∀ d ∈ rest.head?, d = c) : (other c).Takes rest none := by
  cases rest with
  | nil => exact .bothSecond (.absent .charEnd) .anyEnd
  | cons d ds =>
    cases stops d rfl
    exact .bothFirst (.absentNot .char)

/-- A row of other characters is taken as a whole. -/
theorem takes_many_other (free : c ∉ text) (stops : ∀ d ∈ rest.head?, d = c) :
    (many (other c)).Takes (text ++ rest) (some ([], rest)) := by
  induction text with
  | nil => exact .manyEnd (other_fails stops)
  | cons d ds ih =>
    have differs : d ≠ c := fun same => free (same ▸ List.mem_cons_self)
    exact .many (takes_other differs) (ih fun mem => free (List.mem_cons_of_mem _ mem))

theorem takes_content (some : text ≠ []) (free : '{' ∉ text)
    (stops : ∀ d ∈ rest.head?, d = '{') :
    content.Takes (text ++ rest) (.some ([.of .content text []], rest)) := by
  cases text with
  | nil => exact absurd rfl some
  | cons d ds =>
    have differs : d ≠ '{' := fun same => free (same ▸ List.mem_cons_self)
    exact .rule (.both (takes_other differs)
      (takes_many_other (fun mem => free (List.mem_cons_of_mem _ mem)) stops)) rfl

theorem takes_name (free : '}' ∉ text) (stops : ∀ d ∈ rest.head?, d = '}') :
    name.Takes (text ++ rest) (some ([.of .name text []], rest)) :=
  .rule (takes_many_other free stops) rfl

/-- What a slot is read as. -/
def slotReading (text name : List Char) : Reading := .of .slot text [.of .name name []]

/-- A slot ends with the first closing brace. -/
theorem takes_closed (free : '}' ∉ text) :
    slot.Takes ('{' :: (text ++ '}' :: rest))
      (some ([slotReading ('{' :: (text ++ ['}'])) text], rest)) :=
  .rule (.both .char (.both (takes_name free (by simp)) (.either .char))) (by simp)

/-- A slot may be left open by the end of the text only. -/
theorem takes_opened (free : '}' ∉ text) :
    slot.Takes ('{' :: text) (some ([slotReading ('{' :: text) text], [])) := by
  have named : name.Takes (text ++ []) (some ([.of .name text []], [])) :=
    takes_name free (by simp)
  rw [List.append_nil] at named
  exact .rule (.both .char (.both named (.eitherOther .charEnd (.present .ended)))) (by simp)

theorem slot_fails (stops : ∀ d ∈ cs.head?, d ≠ '{') : slot.Takes cs none := by
  cases cs with
  | nil => exact .ruleNot (.bothFirst .charEnd)
  | cons d ds => exact .ruleNot (.bothFirst (.charOther (stops d rfl)))

theorem parts_nil : parts.Takes [] (some ([], [])) :=
  .manyEnd (.eitherOther (slot_fails (by simp)) (.ruleNot (.bothFirst (other_fails (by simp)))))

end Peg

open Peg

/-- The parts of a text, from its start: texts, which end in front of an opening brace, slots, and
perhaps a last slot that is left open. -/
inductive Pieced : List Char → List Reading → Prop
  | nil : Pieced [] []
  | content {text rest readings} (some : text ≠ []) (free : '{' ∉ text)
    (stops : ∀ d ∈ rest.head?, d = '{') (later : Pieced rest readings) :
    Pieced (text ++ rest) (.of .content text [] :: readings)
  | closed {name rest readings} (free : '}' ∉ name) (later : Pieced rest readings) :
    Pieced ('{' :: (name ++ '}' :: rest)) (slotReading ('{' :: (name ++ ['}'])) name :: readings)
  | opened {name} (free : '}' ∉ name) : Pieced ('{' :: name) [slotReading ('{' :: name) name]

/-- Every text is made of such parts; what is left behind one of them is shorter. -/
theorem exists_pieced (cs : List Char) : ∃ readings, Pieced cs readings := by
  induction length : cs.length using Nat.strongRecOn generalizing cs with
  | ind n ih =>
    cases cs with
    | nil => exact ⟨[], .nil⟩
    | cons c cs =>
      by_cases opening : c = '{'
      · subst opening
        by_cases closes : '}' ∈ cs
        · obtain ⟨name, rest, rfl, free⟩ := List.eq_append_cons_of_mem closes
          obtain ⟨readings, later⟩ := ih rest.length (by simp at length; omega) rest rfl
          exact ⟨_, .closed free later⟩
        · exact ⟨_, .opened closes⟩
      · by_cases opens : '{' ∈ cs
        · obtain ⟨text, rest, rfl, free⟩ := List.eq_append_cons_of_mem opens
          have shorter : ('{' :: rest).length < n := by
            simp at length ⊢
            omega
          obtain ⟨readings, later⟩ := ih _ shorter _ rfl
          have pieced : Pieced (c :: text ++ '{' :: rest) _ :=
            .content (by simp) (by simp [free, Ne.symm opening]) (by simp) later
          exact ⟨_, pieced⟩
        · have pieced : Pieced (c :: cs ++ []) _ :=
            .content (by simp) (by simp [opens, Ne.symm opening]) (by simp) .nil
          rw [List.append_nil] at pieced
          exact ⟨_, pieced⟩

/-- The parts of a text are what the grammar takes from it. -/
theorem Pieced.takes {cs : List Char} {readings : List Reading} (pieced : Pieced cs readings) :
    parts.Takes cs (some (readings, [])) := by
  induction pieced with
  | nil => exact parts_nil
  | content some free stops _ ih =>
    refine .many (.eitherOther (slot_fails fun d first => ?_) (takes_content some free stops)) ih
    obtain ⟨c, cs, rfl⟩ := List.exists_cons_of_ne_nil some
    cases first
    exact fun opening => free (opening ▸ List.mem_cons_self)
  | closed free _ ih => exact .many (.either (takes_closed free)) ih
  | opened free => exact .many (.either (takes_opened free)) parts_nil

/-- The grammar has one reading of a text, whatever the text is. -/
theorem Pieced.template_takes_iff {cs : List Char} {readings : List Reading}
    (pieced : Pieced cs readings) (r : Option (List Reading × List Char)) :
    template.Takes cs r ↔ r = some ([.of .template cs readings], []) := by
  have takes : template.Takes cs (some ([.of .template cs readings], [])) := by
    have whole : (both parts .ended).Takes cs (some (readings ++ [], [])) :=
      .both pieced.takes .ended
    rw [List.append_nil] at whole
    exact .rule whole (List.append_nil cs).symm
  constructor
  · intro other
    exact other.unique takes
  · rintro rfl
    exact takes

end Mintage.Template
