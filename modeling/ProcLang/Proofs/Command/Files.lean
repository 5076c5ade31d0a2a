import Mathlib
import ProcLang.Command.Files

/-!
# Files that were written

Writing to a file changes the entry at its place and nothing else
(`Files.entry?_write_of_ne`). Every path goes on leading through the same directories, so
a path that a file was made or opened at leads to that file, and what was written
there is read back (`World.read_of_create`).
-/

set_option autoImplicit false

namespace ProcLang.Command

/-- The place of a file or of something that is not there. -/
def Place.key? : Place → Option (List String)
  | .entry key _ => some key
  | .absent key => some key
  | .directory => none

namespace Files

variable {files : Files} {directory key other : List String} {content : ByteArray}

/-- A write is seen at its own place. -/
theorem entry?_write_self (files : Files) (key : List String) (content : ByteArray) :
    Files.entry? (files.write key content) key = some (.file content) := by
  have absent : (files.entries.filter fun entry => entry.1 != key).find?
      (fun entry => entry.1 == key) = none := by
    rw [List.find?_eq_none]
    intro entry member
    simpa using (List.mem_filter.mp member).2
  simp [write, entry?, List.find?_append, absent]

/-- A write is not seen at any other place. -/
theorem entry?_write_of_ne (files : Files) (content : ByteArray) (different : other ≠ key) :
    Files.entry? (files.write key content) other = files.entry? other := by
  have kept : (files.entries.filter fun entry => entry.1 != key).find?
      (fun entry => entry.1 == other) = files.entries.find? fun entry => entry.1 == other := by
    rw [List.find?_filter]
    congr 1
    funext entry
    by_cases here : entry.1 = other
    · simp [here, different]
    · simp [here]
  have new : (key == other) = false := beq_false_of_ne different.symm
  simp [write, entry?, List.find?_append, kept, new]

/-- No directory is lost. -/
theorem isDirectory_write (content : ByteArray) (found : files.isDirectory other) :
    (files.write key content).isDirectory other := by
  simp only [isDirectory, Bool.or_eq_true, List.any_eq_true] at found ⊢
  refine found.imp_right ?_
  rintro ⟨entry, member, below⟩
  by_cases replaced : entry.1 = key
  · exact ⟨(key, .file content), List.mem_append_right _ (List.mem_singleton_self _),
      replaced ▸ below⟩
  · refine ⟨entry, List.mem_append_left _ (List.mem_filter.mpr ⟨member, ?_⟩), below⟩
    simpa using replaced

/-- What is at a place is what the place says. -/
def Has (files : Files) : Place → Prop
  | .entry key entry => files.entry? key = some entry
  | .absent key => files.entry? key = none ∧ ¬ files.isDirectory key
  | .directory => True

theorem has_of_follow {parts : List String} {place : Place}
    (led : files.follow directory parts = .ok place) : files.Has place := by
  fun_induction files.follow directory parts with
  | case1 =>
      cases led
      trivial
  | case2 directory part rest stays ih => exact ih led
  | case3 directory rest stays ih => exact ih led
  | case4 => cases led
  | case5 directory part rest stays up short key entry found last =>
      cases led
      exact found
  | case6 => cases led
  | case7 directory part rest stays up short key none inner ih => exact ih led
  | case8 directory part rest stays up short key none inner last =>
      cases led
      exact ⟨none, inner⟩
  | case9 => cases led

/-- A directory that a path passes is not the place it leads to. -/
theorem Has.ne_directory {place : Place} (has : files.Has place) (leads : place.key? = some key)
    (none : files.entry? other = none) (inner : files.isDirectory other) : other ≠ key := by
  rintro rfl
  cases place with
  | entry key entry =>
      cases leads
      rw [Has, none] at has
      cases has
  | absent key =>
      cases leads
      exact has.2 inner
  | directory => cases leads

/-- A part of a path is a name, and this is the place it names. -/
structure Names (files : Files) (directory : List String) (part : String) (found : List String) :
    Prop where
  moves : ¬ staysPut part
  down : part ≠ ".."
  short : ¬ (decide (maxNameBytes < part.utf8ByteSize) && (files.refusal? directory).isNone) = true
  leads : files.resolveLink (directory ++ [part]) = found

section Steps

variable {part : String} {found : List String} (names : files.Names directory part found)

include names

theorem Names.write (key : List String) (content : ByteArray) :
    (files.write key content).Names directory part found :=
  ⟨names.moves, names.down, names.short, names.leads⟩

theorem Names.follow_entry {entry : Entry} (there : files.entry? found = some entry) :
    files.follow directory [part] = .ok (.entry found entry) := by
  rw [follow, if_neg names.moves, if_neg names.down, if_neg names.short]
  simp [names.leads, there]

theorem Names.follow_directory (none : files.entry? found = none) (inner : files.isDirectory found)
    (rest : List String) : files.follow directory (part :: rest) = files.follow found rest := by
  rw [follow, if_neg names.moves, if_neg names.down, if_neg names.short]
  simp [names.leads, none, inner]

end Steps

/-- **A path leads to what was written where it leads.** -/
theorem follow_write (content : ByteArray) {parts : List String} {place : Place}
    (led : files.follow directory parts = .ok place) (leads : place.key? = some key) :
    (files.write key content).follow directory parts = .ok (.entry key (.file content)) := by
  have has := has_of_follow led
  -- Directories on the way are left alone, so both files are followed through the same steps.
  fun_induction files.follow directory parts with
  | case1 =>
      cases led
      cases leads
  | case2 directory part rest stays ih =>
      rw [follow, if_pos stays]
      exact ih led
  | case3 directory rest stays ih =>
      rw [follow, if_neg stays, if_pos rfl]
      exact ih led
  | case4 => cases led
  | case5 directory part rest stays up short found entry there last =>
      have names : files.Names directory part found := ⟨stays, up, short, rfl⟩
      obtain rfl := List.isEmpty_iff.mp last
      obtain rfl : .entry found entry = place := Except.ok.inj led
      rw [← Option.some.inj leads]
      exact (names.write found content).follow_entry (entry?_write_self files found content)
  | case6 => cases led
  | case7 directory part rest stays up short found none inner ih =>
      have names : files.Names directory part found := ⟨stays, up, short, rfl⟩
      have other := has.ne_directory leads none inner
      rw [(names.write key content).follow_directory
        ((entry?_write_of_ne files content other).trans none) (isDirectory_write content inner)]
      exact ih led
  | case8 directory part rest stays up short found none inner last =>
      have names : files.Names directory part found := ⟨stays, up, short, rfl⟩
      obtain rfl := List.isEmpty_iff.mp (Bool.and_eq_true_iff.mp last).1
      obtain rfl : .absent found = place := Except.ok.inj led
      rw [← Option.some.inj leads]
      exact (names.write found content).follow_entry (entry?_write_self files found content)
  | case9 => cases led

/-- A path whose last part is a dot leads to a directory, if it leads anywhere. -/
theorem key?_of_follow_dot {parts : List String} {place : Place}
    (led : files.follow directory parts = .ok place) (dot : parts.getLast? = some ".") :
    place.key? = none := by
  have last : ∀ {part : String} {rest : List String}, ¬ staysPut part →
      (part :: rest).getLast? = some "." → rest ≠ [] ∧ rest.getLast? = some "." := by
    intro part rest moves dot
    cases rest with
    | nil =>
        obtain rfl : part = "." := Option.some.inj dot
        exact absurd rfl moves
    | cons next others =>
        rw [List.getLast?_cons_cons] at dot
        exact ⟨List.cons_ne_nil _ _, dot⟩
  fun_induction files.follow directory parts with
  | case1 => cases dot
  | case2 directory part rest stays ih =>
      cases rest with
      | nil =>
          cases led
          rfl
      | cons next others =>
          rw [List.getLast?_cons_cons] at dot
          exact ih led dot
  | case3 directory rest moves ih => exact ih led (last moves dot).2
  | case4 => cases led
  | case5 directory part rest moves up short found entry there ends =>
      exact absurd (List.isEmpty_iff.mp ends) (last moves dot).1
  | case6 => cases led
  | case7 directory part rest moves up short found none inner ih => exact ih led (last moves dot).2
  | case8 directory part rest moves up short found none inner ends =>
      exact absurd (List.isEmpty_iff.mp (Bool.and_eq_true_iff.mp ends).1) (last moves dot).1
  | case9 => cases led

/-- A path is followed from the root or from the working directory, whatever the files
are. -/
theorem exists_followFrom (directory parts : List String) :
    ∃ start rest, (∀ files : Files, files.followFrom directory parts = files.follow start rest) ∧
      (parts.getLast? = some "." → rest.getLast? = some ".") := by
  by_cases root : ∃ rest, parts = "" :: rest
  · obtain ⟨rest, rfl⟩ := root
    refine ⟨[], rest, fun files => by rw [followFrom], fun dot => ?_⟩
    cases rest with
    | nil => exact absurd (Option.some.inj dot) (by decide)
    | cons next others => rwa [List.getLast?_cons_cons] at dot
  · refine ⟨directory, parts, fun files => ?_, id⟩
    rw [followFrom]
    rintro rest rfl
    exact root ⟨rest, rfl⟩

/-- A path to be written to that leads to a file has the same parts for reading. -/
theorem writableParts_eq {path : String} {place : Place}
    (led : files.followFrom directory (writableParts path) = .ok place)
    (leads : place.key? = some key) : writableParts path = pathParts path := by
  unfold writableParts at led ⊢
  dsimp only at led ⊢
  split at led
  next slash =>
    obtain ⟨start, rest, same, dotted⟩ := exists_followFrom directory
      (((pathParts path).reverse.dropWhile (· = "")).reverse.dropLast ++ ["."])
    rw [same] at led
    rw [key?_of_follow_dot led (dotted List.getLast?_concat)] at leads
    cases leads
  next open' => rw [if_neg open']

/-- A path that was written to leads to what was written. -/
theorem locate_write {path : String} {place : Place} (content : ByteArray)
    (led : files.locateWritable directory path = .ok place) (leads : place.key? = some key) :
    (files.write key content).locate directory path = .ok (.entry key (.file content)) := by
  unfold locateWritable at led
  split at led
  next => cases led
  next short =>
    rw [locate, if_neg short, ← writableParts_eq led leads]
    obtain ⟨start, rest, same, -⟩ := exists_followFrom directory (writableParts path)
    rw [same] at led ⊢
    exact follow_write content led leads

end Files

theorem Device.sink_ne_file (device : Device) (key : List String) :
    device.sink ≠ .ok (.file key) := by
  cases device <;> simp [sink]

namespace World

variable {world : World} {path : String} {key : List String}

/-- A file that was opened for writing is at the place that its path leads to. -/
theorem exists_of_create (opened : world.create path = .ok (.file key)) :
    ∃ place, world.files.locateWritable world.directory path = .ok place ∧
      place.key? = some key := by
  unfold create at opened
  split at opened
  next => cases opened
  next => cases opened
  next found led =>
    split at opened
    next => cases opened
    next =>
      cases opened
      exact ⟨_, led, rfl⟩
  next found content led =>
    cases opened
    exact ⟨_, led, rfl⟩
  next found device led => exact absurd opened (device.sink_ne_file key)

/-- **What is written to the file at a path is read back from there.** -/
theorem read_of_create (opened : world.create path = .ok (.file key)) (content : ByteArray) :
    World.read { world with files := world.files.write key content } path = .ok content := by
  obtain ⟨place, led, leads⟩ := exists_of_create opened
  have found := Files.locate_write content led leads
  simp only [read, found]

end World

end ProcLang.Command
