import Mintage.Proofs.Json.Record
import Mintage.Settings.Json

/-! Settings are read back from their JSON text. -/
namespace Mintage

open Json RecordField

namespace AddressBook

theorem enter_of_lt {network address : String} {entries : List (String × String)}
    (below : ∀ entry ∈ entries, entry.1 < network) :
    enter network address entries = entries ++ [(network, address)] := by
  induction entries with
  | nil => rfl
  | cons first entries ih =>
    have less := below first List.mem_cons_self
    have other : network ≠ first.1 := fun same => String.lt_irrefl _ (same ▸ less)
    have later := ih fun entry mem => below entry (List.mem_cons_of_mem _ mem)
    rw [enter, if_neg (String.lt_asymm less), if_neg other, later, List.cons_append]

/-- The entries come in the order of their names, so that each is entered at the end. -/
theorem reads_entries (book state : AddressBook) (todo : List (String × String))
    (split : book.entries = state.entries ++ todo) :
    Codec.Reads readEntry state (todo.map fun entry => (entry.1, writeString entry.2)) book := by
  induction todo generalizing state with
  | nil =>
    rw [List.append_nil] at split
    obtain ⟨entries, ascending⟩ := state
    cases split
    exact .nil _
  | cons entry todo ih =>
    have below : ∀ before ∈ state.entries, before.1 < entry.1 := by
      have ascending := book.ascending
      rw [split, List.pairwise_append] at ascending
      exact fun before mem => ascending.2.2 before mem entry List.mem_cons_self
    have entered : (state.insert entry.1 entry.2).entries = state.entries ++ [entry] :=
      enter_of_lt below
    refine .cons (fun rest closes => ?_) (ih (state.insert entry.1 entry.2) ?_)
    · have read : Codec.text.read (writeString entry.2 ++ rest) = .ok (entry.2, rest) :=
        Codec.text_faithful.reads entry.2 rest closes
      simp [readEntry, colon_cons, read, bind, Except.bind]
    · rw [entered, split, List.append_assoc]
      rfl

/-- A book is written in its order and read entry by entry. -/
theorem codec_faithful : codec.Faithful where
  opens _ := opens_cons (by decide) _
  reads book rest _ := by
    obtain ⟨body, same, read⟩ :=
      Codec.readMembers_object (reads_entries book empty book.entries rfl) rest
    have written : codec.write book =
        Codec.object
          (Codec.writeMembers (book.entries.map fun entry => (entry.1, writeString entry.2))) := by
      simp [codec, write, Codec.writeMembers, Function.comp_def]
    rw [written]
    simp only [codec, same, read]

end AddressBook

theorem ValueType.codec_faithful : ValueType.codec.Faithful := Codec.choice_faithful ofName?_name

theorem Parameter.codec_faithful : Parameter.codec.Faithful :=
  Codec.record_faithful (by decide) fun _ =>
    restores_cons Codec.text_faithful (restores_cons ValueType.codec_faithful rfl)

theorem Payout.codec_faithful : Payout.codec.Faithful :=
  Codec.record_faithful (by decide) fun _ =>
    restores_cons Codec.text_faithful (restores_cons Codec.word32_numeric.faithful rfl)

theorem Allowance.codec_faithful : Allowance.codec.Faithful :=
  Codec.record_faithful (by decide) fun _ =>
    restores_cons Codec.text_faithful (restores_cons Codec.word32_numeric.faithful rfl)

namespace Settings

/-- Every field of the settings is written and found again, and so is what has its default. -/
theorem codec_faithful : codec.Faithful := by
  have text := Codec.text_faithful
  have flag := Codec.flag_faithful
  have text? := text.optional Codec.text_present
  have word32? := Codec.word32_numeric.faithful.optional Codec.word32_numeric.present
  have word64? := Codec.word64_numeric.faithful.optional Codec.word64_numeric.present
  have book := AddressBook.codec_faithful
  refine Codec.record_faithful (by decide) fun s => ?_
  exact restores_cons text <| restores_cons text <| restores_cons word64? <|
    restores_cons word32? <| restores_cons word32? <| restores_cons word64? <|
    restores_cons text? <| restores_cons text? <| restores_cons text <| restores_cons text? <|
    restores_cons flag <| restores_cons flag <| restores_cons flag <| restores_cons flag <|
    restores_cons flag <| restores_cons flag <| restores_cons flag <| restores_cons flag <|
    restores_cons Parameter.codec_faithful.list <| restores_cons book <| restores_cons book <|
    restores_cons Payout.codec_faithful.list <| restores_cons Allowance.codec_faithful.list <|
    restores_cons Codec.word32_numeric.faithful rfl

/-- Settings that are written as JSON are read back as they were. -/
theorem parse_print (s : Settings) : parse s.print = .ok s := by
  have read := codec_faithful.reads s [] closes_nil
  rw [List.append_nil] at read
  simp [parse, print, Codec.parse, Codec.print, String.toList_ofList, read, dropSpace, bind,
    Except.bind]

end Settings

end Mintage
