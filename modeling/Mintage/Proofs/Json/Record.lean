import Mintage.Json.Record
import Mintage.Proofs.Json.Codec

/-! A record is read back from its object if its fields have different names and restore it one
after the other. -/
namespace Mintage.Json

namespace RecordField

variable {α σ : Type} {s record : σ} {fields : List (RecordField σ)}

/-- Reading what the fields write of a record turns another one into it. -/
def Restores (s : σ) : List (RecordField σ) → σ → Prop
  | [], record => record = s
  | field :: fields, record =>
    ∃ change, (∀ rest, Closes rest → field.read (field.write s ++ rest) = .ok (change, rest)) ∧
      Restores s fields (change record)

theorem restores_cons {codec : Codec α} (faithful : codec.Faithful) {required : Bool}
    {name : String} {get : σ → α} {set : α → σ → σ}
    (later : Restores s fields (set (get s) record)) :
    Restores s (ofCodec required name codec get set :: fields) record := by
  refine ⟨set (get s), fun rest closes => ?_, later⟩
  have read := faithful.reads (get s) rest closes
  simp [ofCodec, read, bind, Except.bind]

theorem find?_name (nodup : (fields.map (·.name)).Nodup) {field : RecordField σ}
    (mem : field ∈ fields) : fields.find? (·.name == field.name) = some field := by
  induction fields with
  | nil => cases mem
  | cons first fields ih =>
    obtain ⟨apart, nodup⟩ := List.nodup_cons.1 nodup
    rcases List.mem_cons.1 mem with rfl | mem
    · simp
    · have other : first.name ≠ field.name := fun same =>
        apart (List.mem_map.2 ⟨field, mem, same.symm⟩)
      simp [other, ih nodup mem]

/-- A field that was not read before changes the record. -/
theorem readMember_of_notMem (nodup : (fields.map (·.name)).Nodup) {field : RecordField σ}
    (mem : field ∈ fields) {keys : List String} (unread : field.name ∉ keys) {change : σ → σ}
    {value rest : List Char} (read : field.read (value ++ rest) = .ok (change, rest)) :
    readMember fields ⟨record, keys⟩ field.name (':' :: (value ++ rest)) =
      .ok (⟨change record, field.name :: keys⟩, rest) := by
  have found := find?_name nodup mem
  simp [readMember, found, colon_cons, read, unread, bind, Except.bind]

/-- The fields that stand before are those whose names were read. -/
theorem reads_of_restores (before todo : List (RecordField σ))
    (nodup : ((before ++ todo).map (·.name)).Nodup) (restores : Restores s todo record) :
    Codec.Reads (readMember (before ++ todo)) ⟨record, (before.map (·.name)).reverse⟩
      (todo.map fun field => (field.name, field.write s))
      ⟨s, ((before ++ todo).map (·.name)).reverse⟩ := by
  induction todo generalizing before record with
  | nil =>
    cases restores
    rw [List.append_nil]
    exact .nil _
  | cons field todo ih =>
    obtain ⟨change, read, restores⟩ := restores
    have unread : field.name ∉ (before.map (·.name)).reverse := by
      rw [List.map_append, List.nodup_append] at nodup
      intro mem
      exact nodup.2.2 _ (List.mem_reverse.1 mem) _ List.mem_cons_self rfl
    have later := ih (before ++ [field]) (by simpa using nodup) restores
    refine .cons (fun rest closes =>
      readMember_of_notMem nodup (by simp) unread (read rest closes)) ?_
    simpa using later

end RecordField

/-- From a blank record, the fields restore all that was written. -/
theorem Codec.record_faithful {σ : Type} {blank : σ} {fields : List (RecordField σ)}
    (nodup : (fields.map (·.name)).Nodup)
    (restores : ∀ s, RecordField.Restores s fields blank) :
    (Codec.record blank fields).Faithful where
  opens _ := opens_cons (by decide) _
  reads s rest _ := by
    have reads := RecordField.reads_of_restores [] fields nodup (restores s)
    obtain ⟨body, same, read⟩ := Codec.readMembers_object reads rest
    have written : (Codec.record blank fields).write s =
        object (writeMembers (fields.map fun field => (field.name, field.write s))) := by
      simp [Codec.record, writeMembers, Function.comp_def]
    have complete : RecordField.complete fields (fields.map (·.name)).reverse = true := by
      simp only [RecordField.complete, List.all_eq_true, Bool.or_eq_true, List.contains_iff_mem,
        List.mem_reverse]
      exact fun field mem => .inr (List.mem_map_of_mem mem)
    simp only [List.map_nil, List.reverse_nil, List.nil_append] at read
    rw [written]
    simp only [Codec.record, same, read, complete, bind, Except.bind, if_true]

end Mintage.Json
