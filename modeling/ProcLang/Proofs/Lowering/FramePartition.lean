import ProcLang.Proofs.Lowering.Frame
import ProcLang.Proofs.Machine.Basic

/-!
# The partition of a frame

The words of the locals and of the arguments are counted three times: for the size of
the frame, for its extent, and for the distance at which a name is found. Only the
extent is refused when it grows too large, the other counts stop at the largest one.
A frame has an extent exactly if all its words are in reach
(`Scope.frameExtent?_eq_some_iff`), and then the three counts agree: names are found at
their exact distances (`Scope.FindsFirst`), and the locals divide the frame among
themselves (`Scope.Divides`).
-/

set_option autoImplicit false

namespace ProcLang

namespace Scope

/-! ## The extent -/

theorem foldlM_addOffset?_of_le {words : List Nat} {start : Nat}
    (reach : start + words.sum ≤ maxOffset) :
    words.foldlM addOffset? start = some (start + words.sum) := by
  induction words generalizing start with
  | nil => rfl
  | cons first rest ih =>
      rw [List.sum_cons] at reach
      have few : start + first ≤ maxOffset := by omega
      rw [List.foldlM_cons, addOffset?, if_pos few, List.sum_cons, ← Nat.add_assoc]
      exact ih (by omega)

/-- **A frame has an extent exactly if all its words are in reach.** -/
theorem frameExtent?_eq_some_iff {scope : Scope} {extent : Nat} :
    scope.frameExtent? = some extent ↔
      extent = localWords scope.locals + scope.parameters.length ∧ extent ≤ maxOffset := by
  constructor
  · exact frameExtent?_eq
  · rintro ⟨rfl, reach⟩
    have total : (scope.locals.map Declaration.words ++ scope.parameters.map fun _ => 1).sum =
        localWords scope.locals + scope.parameters.length := by
      simp [localWords, List.map_const']
    rw [frameExtent?, foldlM_addOffset?_of_le (by rwa [total, Nat.zero_add]), total, Nat.zero_add]

/-! ## Distances -/

/-- The distance below the top of the frame of the local at a place: its own words and
those of the locals before it. -/
def localShift (scope : Scope) (place : Nat) : Nat :=
  localWords (scope.locals.take (place + 1))

/-- The distances of all words of the local at a place. -/
def localDistances (scope : Scope) (place : Fin scope.locals.length) : Finset Nat :=
  Finset.Icc (scope.localShift place - (scope.locals.get place).words + 1) (scope.localShift place)

theorem localWords_append (first second : List Declaration) :
    localWords (first ++ second) = localWords first + localWords second := by
  simp [localWords]

theorem localWords_take_mono (locals : List Declaration) :
    Monotone fun place => localWords (locals.take place) := by
  refine monotone_nat_of_le_succ fun place => ?_
  rw [List.take_add_one, localWords_append]
  exact Nat.le_add_right _ _

theorem localWords_take_le (locals : List Declaration) (place : Nat) :
    localWords (locals.take place) ≤ localWords locals := by
  conv_rhs => rw [← List.take_append_drop place locals, localWords_append]
  exact Nat.le_add_right _ _

/-- A local lies just below the locals before it. -/
theorem localShift_eq (scope : Scope) (place : Fin scope.locals.length) :
    scope.localShift place =
      localWords (scope.locals.take place) + (scope.locals.get place).words := by
  rw [localShift, List.take_succ_eq_append_getElem place.isLt, localWords_append, localWords_cons,
    localWords_nil]
  rfl

theorem mem_localDistances {scope : Scope} {place : Fin scope.locals.length} {distance : Nat} :
    distance ∈ scope.localDistances place ↔
      localWords (scope.locals.take place) < distance ∧
        distance ≤ localWords (scope.locals.take (place + 1)) := by
  have shift := scope.localShift_eq place
  rw [localDistances, Finset.mem_Icc, ← localShift]
  omega

/-- **The locals divide the words of the frame among themselves.** -/
structure Divides (scope : Scope) (total : Nat) : Prop where
  disjoint : Pairwise fun place place' : Fin scope.locals.length =>
    Disjoint (scope.localDistances place) (scope.localDistances place')
  covered : ∀ distance, (∃ place, distance ∈ scope.localDistances place) ↔
    1 ≤ distance ∧ distance ≤ total

theorem divides (scope : Scope) : scope.Divides (localWords scope.locals) where
  disjoint := by
    -- The ranges follow each other, so the later one starts where the earlier one has ended.
    have apart : ∀ {place place' : Fin scope.locals.length}, place < place' →
        Disjoint (scope.localDistances place) (scope.localDistances place') := by
      intro place place' before
      rw [Finset.disjoint_left]
      intro distance here there
      have order : localWords (scope.locals.take (place + 1)) ≤
          localWords (scope.locals.take place') :=
        localWords_take_mono scope.locals (Nat.succ_le_of_lt before)
      have ended := (mem_localDistances.mp here).2
      have started := (mem_localDistances.mp there).1
      omega
    intro place place' different
    rcases lt_or_gt_of_ne different with before | after
    · exact apart before
    · exact (apart after).symm
  covered := by
    intro distance
    constructor
    · rintro ⟨place, member⟩
      obtain ⟨low, high⟩ := mem_localDistances.mp member
      have within := localWords_take_le scope.locals (place + 1)
      omega
    · rintro ⟨positive, within⟩
      -- The first place by whose end the distance is reached.
      have reached : ∃ place, distance ≤ localWords (scope.locals.take (place + 1)) := by
        refine ⟨scope.locals.length, ?_⟩
        rwa [List.take_of_length_le (Nat.le_succ _)]
      classical
      have high := Nat.find_spec reached
      have low : localWords (scope.locals.take (Nat.find reached)) < distance := by
        cases first : Nat.find reached with
        | zero => exact positive
        | succ earlier =>
            have missed := Nat.find_min reached (m := earlier) (by omega)
            exact Nat.lt_of_not_le missed
      have inside : Nat.find reached < scope.locals.length := by
        by_contra beyond
        have all : scope.locals.take (Nat.find reached) = scope.locals :=
          List.take_of_length_le (Nat.le_of_not_lt beyond)
        rw [all] at low
        omega
      exact ⟨⟨Nat.find reached, inside⟩, mem_localDistances.mpr ⟨low, high⟩⟩

/-! ## Names -/

section Find

variable {name : String} {parameters : List String} {locals : List Declaration} {shift : Nat}

theorem findLocal_of_first (few : shift + localWords locals ≤ maxCount)
    {place : Nat} {declared : Declaration} (listed : locals[place]? = some declared)
    (first : ∀ earlier ∈ locals.take place, earlier.name ≠ declared.name) :
    findLocal declared.name parameters shift locals =
      some (.frameLocal (shift + localWords (locals.take (place + 1))) declared.size) := by
  induction locals generalizing shift place with
  | nil => simp at listed
  | cons leading rest ih =>
      rw [localWords_cons] at few
      rw [findLocal, addCount_eq (by omega), List.take_succ_cons, localWords_cons]
      cases place with
      | zero =>
          obtain rfl : leading = declared := by simpa using listed
          rw [if_pos rfl, List.take_zero, localWords_nil, Nat.add_zero]
      | succ place =>
          rw [List.take_succ_cons] at first
          rw [if_neg (first leading List.mem_cons_self),
            ih (by omega) (by simpa using listed)
              fun earlier member => first earlier (.tail _ member),
            Nat.add_assoc]

end Find

/-- A name stands for the first local that has it, else for the first parameter, else
for a global, and every distance is exact. -/
structure FindsFirst (scope : Scope) (resolve : String → Address)
    (globalSize? : String → Option UInt32) : Prop where
  ofLocal : ∀ place : Fin scope.locals.length,
    (∀ earlier < place, (scope.locals.get earlier).name ≠ (scope.locals.get place).name) →
      resolve (scope.locals.get place).name =
        .frameLocal (scope.localShift place) (scope.locals.get place).size
  ofParameter : ∀ place : Fin scope.parameters.length,
    (∀ declared ∈ scope.locals, declared.name ≠ scope.parameters.get place) →
    (∀ earlier < place, scope.parameters.get earlier ≠ scope.parameters.get place) →
      resolve (scope.parameters.get place) = .parameter (scope.frameSize + place + 1)
  ofGlobal : ∀ name, (∀ declared ∈ scope.locals, declared.name ≠ name) →
    name ∉ scope.parameters → resolve name = .global name (globalSize? name)

/-- What holds of the members at all earlier places holds of those in front. -/
theorem forall_mem_take {α : Type} {items : List α} {place : Fin items.length} {P : α → Prop}
    (earlier : ∀ other < place, P (items.get other)) : ∀ item ∈ items.take place, P item := by
  intro item member
  obtain ⟨index, before, rfl⟩ := List.mem_take_iff_getElem.mp member
  have inside : index < place := by omega
  exact earlier ⟨index, by omega⟩ inside

theorem findsFirst {scope : Scope} {extent : Nat} (reach : scope.frameExtent? = some extent)
    {context : Context} (within : context.scope = scope) :
    scope.FindsFirst context.resolve context.globalSize? := by
  obtain ⟨same, few⟩ := frameExtent?_eq reach
  have room : extent ≤ maxCount := Nat.le_trans few (by decide)
  subst within
  refine ⟨fun place first => ?_, fun place absent first => ?_, fun name absent absent' => ?_⟩
  · have found := @findLocal_of_first context.scope.parameters _ 0 (by omega) place _
      (List.getElem?_eq_getElem place.isLt) (forall_mem_take first)
    rw [Context.resolve, find, List.get_eq_getElem, found, Option.getD_some, Nat.zero_add]
    rfl
  · have fresh := forall_mem_take (P := (· ≠ context.scope.parameters.get place)) first
    have found := find_parameter reach (List.getElem?_eq_getElem place.isLt)
      (fun member => fresh _ member rfl) absent
    rw [Context.resolve, List.get_eq_getElem, found, Option.getD_some]
  · rw [Context.resolve, find, findLocal_of_not_mem (by omega) absent,
      findParameter_of_not_mem absent', Option.getD_none]

/-! ## Addresses -/

/-- Words at different distances that are in reach have different addresses. -/
theorem injOn_below {extent : Nat} (reach : extent ≤ maxOffset) (top : Word) :
    Set.InjOn (fun distance => top - BitVec.ofNat 32 distance) (Set.Icc 1 extent) := by
  unfold maxOffset at reach
  intro distance member distance' member' same
  have small : distance < 2 ^ 32 := by
    have := member.2
    omega
  have small' : distance' < 2 ^ 32 := by
    have := member'.2
    omega
  have words : BitVec.ofNat 32 distance = BitVec.ofNat 32 distance' := by
    simpa using congrArg (top - ·) same
  have numbers := congrArg BitVec.toNat words
  rwa [BitVec.toNat_ofNat, BitVec.toNat_ofNat, Nat.mod_eq_of_lt small,
    Nat.mod_eq_of_lt small'] at numbers

/-- An element of an array lies among the words of the array, whatever has been pushed. -/
theorem exists_distance {scope : Scope} {place : Fin scope.locals.length} {index : Nat}
    (inside : index < (scope.locals.get place).words) (stack : Word) (pushed : Nat) :
    ∃ distance ∈ scope.localDistances place,
      stack - BitVec.ofNat 32 (scope.localShift place + pushed) + BitVec.ofNat 32 index =
        stack - BitVec.ofNat 32 pushed - BitVec.ofNat 32 distance := by
  have shift := scope.localShift_eq place
  refine ⟨scope.localShift place - index, ?_, ?_⟩
  · rw [localDistances, Finset.mem_Icc]
    omega
  · have split : scope.localShift place = scope.localShift place - index + index := by omega
    conv_lhs => rw [split]
    rw [BitVec.ofNat_add, BitVec.ofNat_add]
    ring

/-- **A frame is divided among its variables.** It has an extent exactly if its words
are in reach of an offset, and then the extent is their number, every name is found
first where it is declared first and at its exact distance, the locals share out the
distances up to the size of the frame, the parameters follow in order up to the extent,
all these words have different addresses, and an element of a local array is a word of
that array below the top of the frame, however many words are pushed above it. -/
theorem frame_partitioned (scope : Scope) :
    (∀ extent, scope.frameExtent? = some extent ↔
      extent = localWords scope.locals + scope.parameters.length ∧ extent ≤ 2147483647) ∧
    ∀ extent, scope.frameExtent? = some extent →
      scope.frameSize = localWords scope.locals ∧
      (∀ context : Context, context.scope = scope →
        scope.FindsFirst context.resolve context.globalSize?) ∧
      scope.Divides scope.frameSize ∧
      extent = scope.frameSize + scope.parameters.length ∧
      (∀ top : Word,
        Set.InjOn (fun distance => top - BitVec.ofNat 32 distance) (Set.Icc 1 extent)) ∧
      ∀ (place : Fin scope.locals.length) (index : Nat), index < (scope.locals.get place).words →
        ∀ (stack : Word) (pushed : Nat), ∃ distance ∈ scope.localDistances place,
          stack - BitVec.ofNat 32 (scope.localShift place + pushed) + BitVec.ofNat 32 index =
            stack - BitVec.ofNat 32 pushed - BitVec.ofNat 32 distance := by
  refine ⟨fun extent => frameExtent?_eq_some_iff, fun extent reach => ?_⟩
  obtain ⟨same, few⟩ := frameExtent?_eq_some_iff.mp reach
  have size := frameSize_eq reach
  refine ⟨size, fun context within => findsFirst reach within, ?_, by rw [size, same],
    injOn_below few, fun place index => exists_distance⟩
  rw [size]
  exact scope.divides

/-- A frame that fills all that an offset can reach, with two arrays of one name, and a
parameter that has their name too. -/
def fullScope : Scope :=
  ⟨[⟨"a", 3⟩, ⟨"a", 2⟩, ⟨"b", 2147483640⟩], ["n", "a"]⟩

/-- The first array of the name is found, and the parameters are the last words in
reach. The other array has words of its own. -/
theorem frame_partitioned_full :
    fullScope.frameExtent? = some 2147483647 ∧
      (∀ context : Context, context.scope = fullScope →
        context.resolve "a" = .frameLocal 3 3 ∧ context.resolve "n" = .parameter 2147483646 ∧
          context.resolve "c" = .global "c" (context.globalSize? "c")) ∧
      Disjoint (fullScope.localDistances ⟨0, by decide⟩) (fullScope.localDistances ⟨1, by decide⟩) ∧
      ∃ distance ∈ fullScope.localDistances ⟨1, by decide⟩,
        (100 : Word) - BitVec.ofNat 32 (fullScope.localShift 1 + 7) + BitVec.ofNat 32 1 =
          100 - BitVec.ofNat 32 7 - BitVec.ofNat 32 distance := by
  have reach : fullScope.frameExtent? = some 2147483647 := by decide
  obtain ⟨-, finds, divides, -, -, elements⟩ := (frame_partitioned fullScope).2 _ reach
  refine ⟨reach, fun context within => ?_, divides.disjoint (by decide),
    elements ⟨1, by decide⟩ 1 (by decide) 100 7⟩
  have finds := finds context within
  exact ⟨finds.ofLocal ⟨0, by decide⟩ (by decide),
    finds.ofParameter ⟨0, by decide⟩ (by decide) (by decide),
    finds.ofGlobal "c" (by decide) (by decide)⟩

end Scope

end ProcLang
