import Mintage.Command.Files

/-! What a host has to keep to, and the directory in memory as one that does: what is written to a
file is read from it, and no other file changes. -/
namespace Mintage.Command

theorem fromUTF8?_toByteArray (text : String) :
    String.fromUTF8? text.toByteArray = some text := by
  unfold String.fromUTF8?
  rw [dif_pos text.isValidUTF8]
  rfl

/-- Removing the entries of a name leaves those of other names. -/
theorem lookup_filter {name other : String} (apart : other ≠ name)
    (files : List (String × ByteArray)) :
    (files.filter (·.1 != name)).lookup other = files.lookup other := by
  induction files with
  | nil => rfl
  | cons file files ih =>
    obtain ⟨first, bytes⟩ := file
    by_cases same : first = name
    · subst same
      have passed : (other == first) = false := by simpa using apart
      simp [List.lookup_cons, passed, ih]
    · simp [List.lookup_cons, same, ih]

namespace Directory

variable {d after : Directory} {path text name : String} {slash : Bool}

/-- Where a file has its place does not depend on the files that are there. -/
theorem place_of_file (found : d.place path = .ok (.file name slash)) (other : Directory) :
    other.place path = .ok (.file name slash) := by
  unfold Directory.place at found ⊢
  dsimp only at found ⊢
  split at found
  · cases found
  rename_i written
  split at found
  · cases found
  rename_i moves
  split at found
  · cases found
  rename_i relative
  split at found
  · split at found <;> cases found
  rename_i inside
  rw [if_neg written, if_neg moves, if_neg relative, if_neg inside]
  split at found
  · exact found
  · cases found
  · cases found

/-- The file of a path holds a text, and the others what they held before. -/
structure Saved (d : Directory) (path text : String) (after : Directory) : Prop where
  held : after.read path = .ok text
  others : ∀ name, d.place path ≠ .ok (.file name false) →
    after.contents? name = d.contents? name

theorem saved_of_write (written : d.write path text = .ok after) : d.Saved path text after := by
  unfold write at written
  cases found : d.place path with
  | error error => simp [found, bind, Except.bind] at written
  | ok place =>
    simp only [found, bind, Except.bind] at written
    split at written
    · cases written
    · cases written
    · rename_i name
      cases written
      refine ⟨?_, fun other elsewhere => ?_⟩
      · unfold read
        rw [place_of_file found]
        simp [contents?, fromUTF8?_toByteArray, bind, Except.bind]
      · have apart : other ≠ name := by
          rintro rfl
          exact elsewhere found
        have passed : (other == name) = false := by simpa using apart
        simp only [contents?, List.lookup_cons, passed, lookup_filter apart]

end Directory

namespace Host

section

variable {σ : Type}

/-- The laws of a host whose surroundings are in some state. -/
structure Lawful (host : Host (StateM σ)) : Prop where
  /-- A file is not changed when it is read. -/
  read_keeps : ∀ path s, (host.read path s).2 = s
  /-- Reports do not go to a file. -/
  report_keeps : ∀ line s, (host.report line s).2 = s
  /-- A file that cannot be written is as it was. -/
  refused_keeps : ∀ {path text s error after},
    host.write path text s = (.error error, after) → after = s
  /-- A file that is written holds the text, all of it and nothing else. -/
  written_reads : ∀ {path text s after},
    host.write path text s = (.ok (), after) → (host.read path after).1 = .ok text

/-- For all that is left behind, nothing is reported. -/
theorem Lawful.report_eq {host : Host (StateM σ)} (lawful : host.Lawful) :
    host.report = fun _ => pure () := by
  funext line s
  exact Prod.ext rfl (lawful.report_keeps line s)

/-- One write has put a text into a file, where it is read again. -/
structure Saved (host : Host (StateM σ)) (s : σ) (path text : String) (after : σ) : Prop where
  written : host.write path text s = (.ok (), after)
  held : (host.read path after).1 = .ok text

end

variable {d after : Directory} {path text : String} {error : FileError}

theorem write_inMemory_of_ok (written : d.write path text = .ok after) :
    inMemory.write path text d = (.ok (), after) := by
  simp only [inMemory, written]

theorem write_of_inMemory_ok (written : inMemory.write path text d = (.ok (), after)) :
    d.write path text = .ok after := by
  simp only [inMemory] at written
  cases found : d.write path text with
  | ok next =>
    rw [found] at written
    rw [(Prod.mk.inj written).2]
  | error error =>
    rw [found] at written
    cases written

theorem eq_of_inMemory_error (refused : inMemory.write path text d = (.error error, after)) :
    after = d := by
  simp only [inMemory] at refused
  cases found : d.write path text with
  | ok next =>
    rw [found] at refused
    cases refused
  | error error =>
    rw [found] at refused
    exact (Prod.mk.inj refused).2.symm

/-- The directory in memory is a host like any other. -/
theorem inMemory_lawful : inMemory.Lawful where
  read_keeps _ _ := rfl
  report_keeps _ _ := rfl
  refused_keeps := eq_of_inMemory_error
  written_reads written := (Directory.saved_of_write (write_of_inMemory_ok written)).held

/-- In memory, a write changes one file only. -/
theorem Saved.of_inMemory (saved : inMemory.Saved d path text after) : d.Saved path text after :=
  Directory.saved_of_write (write_of_inMemory_ok saved.written)

end Host

end Mintage.Command
