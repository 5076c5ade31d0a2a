import ProcLang.Proofs.Lowering.FlatMeaning
import ProcLang.Proofs.Lowering.Frame
import ProcLang.Proofs.Semantics.Named

/-!
# Named variables in memory

Every word of a variable has a place in the memory of the machine: the words of
an activation lie in its frame and below it, where its arguments are, and the
globals lie outside the stack (`Layout`). `Activation.Follows` says that the
memory holds what a store says, and that the activation has left alone what does
not belong to it: the stack below its arguments, and the words pushed above its
frame.

A load finds the value of a word, if it has one (`Activation.Follows.load`), and
an assignment keeps the relation (`Activation.Follows.assign`), because no two
words share a place.
-/

set_option autoImplicit false

namespace ProcLang

/-! ## Names and variables -/

namespace Scope

section Find

variable {name : String} {parameters : List String} {locals : List Declaration} {shift : Nat}

theorem exists_findLocal {declared : Declaration}
    (found : (locals.find? fun declared => declared.name == name) = some declared) :
    ∃ shift', findLocal name parameters shift locals = some (.frameLocal shift' declared.size) := by
  induction locals generalizing shift with
  | nil => cases found
  | cons first rest ih =>
      rw [List.find?_cons] at found
      split at found
      next here =>
        cases found
        exact ⟨_, if_pos (beq_iff_eq.mp here)⟩
      next other =>
        obtain ⟨shift', inRest⟩ := @ih (addCount shift first.words) found
        exact ⟨shift', (if_neg (beq_eq_false_iff_ne.mp other)).trans inRest⟩

theorem exists_findParameter (listed : name ∈ parameters) :
    ∃ shift', findParameter name shift parameters = some (.parameter shift') := by
  induction parameters generalizing shift with
  | nil => cases listed
  | cons parameter rest ih =>
      by_cases here : parameter = name
      · exact ⟨_, if_pos here⟩
      · rcases List.mem_cons.mp listed with same | listed
        · exact absurd same.symm here
        · obtain ⟨shift', inRest⟩ := @ih (addCount shift 1) listed
          exact ⟨shift', (if_neg here).trans inRest⟩

theorem ne_of_find?_eq_none
    (none : (locals.find? fun declared => declared.name == name) = none) :
    ∀ declared ∈ locals, declared.name ≠ name := by
  simpa using List.find?_eq_none.mp none

end Find

variable {scope : Scope} {globals : List Declaration} {name : String} {found : Variable}
  {extent : Nat}

/-- Where an own variable lives, each of its words has a distance. -/
theorem find_of_own (reach : scope.frameExtent? = some extent)
    (listed : scope.lookup? globals name = some found) (own : found.own) :
    ∃ address, scope.find name = some address ∧ address.isArray = decide (1 < found.words) ∧
      ∀ index < found.words, ∃ distance, address.cell? index = some distance := by
  unfold lookup? at listed
  split at listed
  next declared isLocal =>
    cases listed
    obtain ⟨shift, lives⟩ :=
      @exists_findLocal name scope.parameters scope.locals 0 declared isLocal
    exact ⟨_, lives, rfl, fun index inside => ⟨_, if_pos inside⟩⟩
  next notLocal =>
    obtain ⟨same, few⟩ := frameExtent?_eq reach
    have room : extent ≤ maxCount := Nat.le_trans few (by decide)
    split at listed
    next isParameter =>
      cases listed
      obtain ⟨shift, lives⟩ :=
        @exists_findParameter name scope.parameters (0 + localWords scope.locals) isParameter
      rw [← findLocal_of_not_mem (by omega) (ne_of_find?_eq_none notLocal)] at lives
      refine ⟨_, lives, rfl, fun index inside => ⟨shift, ?_⟩⟩
      exact if_pos (Nat.lt_one_iff.mp inside)
    next =>
      obtain ⟨declared, -, rfl⟩ := Option.map_eq_some_iff.mp listed
      cases own

/-- A shared variable is declared as a global, and no other name hides it. -/
theorem find_of_shared (reach : scope.frameExtent? = some extent)
    (listed : scope.lookup? globals name = some found) (shared : found.own = false) :
    scope.find name = none ∧
      ∃ declared, (globals.find? fun declared => declared.name == name) = some declared ∧
        declared.words = found.words := by
  unfold lookup? at listed
  split at listed
  next declared isLocal =>
    cases listed
    cases shared
  next notLocal =>
    obtain ⟨same, few⟩ := frameExtent?_eq reach
    have room : extent ≤ maxCount := Nat.le_trans few (by decide)
    split at listed
    next =>
      cases listed
      cases shared
    next notParameter =>
      obtain ⟨declared, isGlobal, rfl⟩ := Option.map_eq_some_iff.mp listed
      refine ⟨?_, declared, isGlobal, rfl⟩
      rw [find, findLocal_of_not_mem (by omega) (ne_of_find?_eq_none notLocal),
        findParameter_of_not_mem notParameter]

/-- A name is lowered as an array exactly if it stands for one. -/
theorem isArray_resolve (reach : scope.frameExtent? = some extent)
    (listed : scope.lookup? globals name = some found) :
    (scope.resolve globals name).isArray = decide (1 < found.words) := by
  cases own : found.own with
  | true =>
      obtain ⟨address, lives, array, -⟩ := find_of_own reach listed own
      rw [resolve, lives, Option.getD_some, array]
  | false =>
      obtain ⟨lives, declared, isGlobal, words⟩ := find_of_shared reach listed own
      rw [resolve, lives, Option.getD_none, isGlobal, ← words]
      rfl

end Scope

/-! ## Places -/

/-- The address of a global. -/
def Machine.globalAddress (machine : Machine) (name : String) : Word :=
  machine.labelAddress (Label.global name).text

/-- Where the globals and the stack are: no two words share a place. -/
structure Layout (machine : Machine) where
  globals : List Declaration
  /-- The address of the first word of the stack. -/
  bottom : Word
  /-- The words that the stack may take. -/
  room : Nat
  small : room < 2 ^ 32
  distinct : ∀ {declared declared' : Declaration} {index index' : Nat}, declared ∈ globals →
    declared' ∈ globals → index < declared.words → index' < declared'.words →
    above (machine.globalAddress declared.name) index =
      above (machine.globalAddress declared'.name) index' →
    declared.name = declared'.name ∧ index = index'
  apart : ∀ {declared : Declaration} {index height : Nat}, declared ∈ globals →
    index < declared.words → height < room →
    above (machine.globalAddress declared.name) index ≠ above bottom height

variable {machine : Machine} {layout : Layout machine}

theorem above_toNat (base index : Word) : above base index.toNat = base + index := by
  rw [above, BitVec.ofNat_toNat, BitVec.setWidth_eq]

theorem Layout.above_ne (layout : Layout machine) {height height' : Nat}
    (inside : height < layout.room) (inside' : height' < layout.room)
    (different : height ≠ height') :
    above layout.bottom height ≠ above layout.bottom height' := fun same =>
  different (above_injective (Nat.lt_trans inside layout.small) (Nat.lt_trans inside' layout.small)
    same)

/-- The memory holds what all activations share. -/
structure Layout.Holds (layout : Layout machine) (shared : Shared) (world : World) : Prop where
  globals : ∀ {declared : Declaration} {index : Nat}, declared ∈ layout.globals →
    index < declared.words →
    world.memory (above (machine.globalAddress declared.name) index) =
      shared.globals declared.name index
  channel : world.channel = shared.channel

namespace Layout.Holds

variable {shared : Shared} {world : World}

/-- A word of the stack may change. -/
theorem store_stack (holds : layout.Holds shared world) {height : Nat} (value : Word)
    (inside : height < layout.room) :
    layout.Holds shared (world.store (above layout.bottom height) value) :=
  ⟨fun listed within =>
    (World.memory_store_of_ne _ _ (layout.apart listed within inside)).trans
      (holds.globals listed within),
    holds.channel⟩

theorem read? (holds : layout.Holds shared world) :
    (shared.read? = none → world.read? = none) ∧
      ∀ word shared', shared.read? = some (word, shared') →
        ∃ world', world.read? = some (word, world') ∧ layout.Holds shared' world' := by
  unfold Shared.read? World.read?
  rw [holds.channel]
  cases shared.channel.input with
  | nil => exact ⟨fun _ => rfl, nofun⟩
  | cons value rest =>
      refine ⟨nofun, ?_⟩
      rintro word shared' ⟨⟩
      exact ⟨_, rfl, fun listed within => holds.globals listed within, rfl⟩

theorem write (holds : layout.Holds shared world) (value : Word) :
    layout.Holds (shared.write value) (world.write value) :=
  ⟨fun listed within => holds.globals listed within, by
    rw [World.write, Shared.write, holds.channel]⟩

end Layout.Holds

/-! ## Activations -/

/-- One activation of a procedure: its names, the words of the stack that do not
belong to it, and where it returns to. -/
structure Activation (layout : Layout machine) where
  scope : Scope
  extent : Nat
  reach : scope.frameExtent? = some extent
  low : Nat
  fits : low + extent ≤ layout.room
  link : Word

namespace Activation

variable (activation : Activation layout)

/-- The words of the stack up to the top of the frame. -/
def top : Nat := activation.low + activation.extent

/-- What the code of the procedure refers to. -/
def setting : Setting :=
  machine.setting (activation.scope.resolve layout.globals) (above layout.bottom activation.top)
    activation.link

variable {activation}

/-- The address of a word of the frame. -/
theorem address_own {name : String} {address : Address} {index distance : Nat}
    (lives : activation.scope.find name = some address)
    (cell : address.cell? index = some distance) :
    above (activation.setting.address name) index =
      above layout.bottom (activation.top - distance) := by
  have resolved : activation.setting.resolve name = address := by
    simp [setting, Machine.setting, Scope.resolve, lives]
  obtain ⟨positive, within⟩ := Scope.cell?_bounds activation.reach lives cell
  have split : activation.top = activation.top - distance + distance := by
    have : distance ≤ activation.top := Nat.le_trans within (Nat.le_add_left _ _)
    omega
  cases address with
  | frameLocal shift size =>
      simp only [Address.cell?, Option.ite_none_right_eq_some, Option.some.injEq] at cell
      have shifted : shift = distance + index := by omega
      have down : above layout.bottom activation.top - BitVec.ofNat 32 shift =
          above layout.bottom (activation.top - distance) - BitVec.ofNat 32 index := by
        conv => lhs; rw [split, shifted]
        rw [← above_above, Nat.add_comm distance index]
        exact Plan.above_sub_add _ index distance
      simp only [Setting.address, resolved]
      rw [show activation.setting.top = above layout.bottom activation.top from rfl, down, above,
        BitVec.sub_add_cancel]
  | parameter shift =>
      simp only [Address.cell?, Option.ite_none_right_eq_some, Option.some.injEq] at cell
      obtain ⟨rfl, rfl⟩ := cell
      simp only [Setting.address, resolved]
      rw [show activation.setting.top = above layout.bottom activation.top from rfl, above_zero]
      conv => lhs; rw [split]
      exact above_sub _ _ _
  | global name size => cases cell

theorem address_shared {name : String} (lives : activation.scope.find name = none) :
    activation.setting.address name = machine.globalAddress name := by
  simp [Setting.address, setting, Machine.setting, Scope.resolve, lives, Machine.globalAddress]

theorem stack_of_stands {pushed : Nat} {core : Core}
    (stands : activation.setting.Stands pushed core) :
    core.get .stack = above layout.bottom (activation.top + pushed) :=
  stands.stack.trans (above_above _ _ _)

/-- The memory holds a store, and since a start nothing has changed on the stack
but words of the activation and words that are no longer in use. -/
structure Follows (activation : Activation layout) (pushed : Nat) (start : World) (store : Store)
    (world : World) : Prop where
  own : ∀ {name : String} {address : Address} {index distance : Nat} {value : Word},
    activation.scope.find name = some address → address.cell? index = some distance →
    store.own name index = some value →
    world.memory (above layout.bottom (activation.top - distance)) = value
  shared : layout.Holds store.shared world
  kept : ∀ height, height < activation.low ∨ activation.top ≤ height →
    height < activation.top + pushed →
    world.memory (above layout.bottom height) = start.memory (above layout.bottom height)

namespace Follows

variable {pushed fewer : Nat} {start middle world : World} {store : Store}

theorem refl (follows : activation.Follows pushed start store world) (pushed' : Nat) :
    activation.Follows pushed' world store world :=
  ⟨follows.own, follows.shared, fun _ _ _ => rfl⟩

theorem trans {store' : Store} (first : activation.Follows pushed start store middle)
    (second : activation.Follows pushed middle store' world) :
    activation.Follows pushed start store' world :=
  ⟨second.own, second.shared, fun height other inside =>
    (second.kept height other inside).trans (first.kept height other inside)⟩

theorem mono (follows : activation.Follows pushed start store world) (less : fewer ≤ pushed) :
    activation.Follows fewer start store world :=
  ⟨follows.own, follows.shared, fun height other inside =>
    follows.kept height other (Nat.lt_of_lt_of_le inside (Nat.add_le_add_left less _))⟩

/-- The height of a word of the activation: it is on the stack, and it is the
activation's own. -/
theorem height_own {name : String} {address : Address} {index distance : Nat}
    (lives : activation.scope.find name = some address)
    (cell : address.cell? index = some distance) :
    activation.low ≤ activation.top - distance ∧ activation.top - distance < activation.top ∧
      distance ≤ activation.top ∧ activation.top ≤ layout.room := by
  have bounds := Scope.cell?_bounds activation.reach lives cell
  have fits := activation.fits
  unfold top
  omega

/-- A word of the stack that is not in use may change. -/
theorem store_stack (follows : activation.Follows pushed start store world) {height : Nat}
    (value : Word) (free : activation.top + pushed ≤ height) (inside : height < layout.room) :
    activation.Follows pushed start store
      (world.store (above layout.bottom height) value) := by
  refine ⟨fun lives cell given => ?_, follows.shared.store_stack value inside,
    fun other apart used => ?_⟩
  · obtain ⟨-, below, -, -⟩ := height_own lives cell
    rw [World.memory_store_of_ne _ _ (layout.above_ne (by omega) inside (by omega))]
    exact follows.own lives cell given
  · rw [World.memory_store_of_ne _ _ (layout.above_ne (by omega) inside (by omega))]
    exact follows.kept other apart used

theorem storeAll_stack (follows : activation.Follows pushed start store world) {height : Nat}
    (values : List Word) (free : activation.top + pushed ≤ height)
    (inside : height + values.length ≤ layout.room) :
    activation.Follows pushed start store
      (world.storeAll (above layout.bottom height) values) := by
  induction values generalizing world height with
  | nil => exact follows
  | cons value rest ih =>
      rw [List.length_cons] at inside
      have later := ih (follows.store_stack value free (by omega)) (by omega : _ ≤ height + 1)
        (by omega)
      rwa [← above_above, above_one] at later

/-- The words that are pushed are kept. -/
theorem keeps (follows : activation.Follows pushed start store world) :
    World.Keeps (above layout.bottom activation.top) pushed start world := by
  intro index inside
  rw [above_above]
  exact follows.kept _ (.inr (Nat.le_add_right _ _)) (Nat.add_lt_add_left inside _)

/-- **A load finds the value of a word.** -/
theorem load (follows : activation.Follows pushed start store world) {cell : Cell} {value : Word}
    (loaded : store.load? (activation.scope.lookup? layout.globals) cell = some value) :
    world.memory (activation.setting.address cell.name + cell.index) = value := by
  rw [← above_toNat]
  unfold Store.load? at loaded
  split at loaded
  next => cases loaded
  next found listed =>
    split at loaded
    next within =>
      split at loaded
      next own =>
        obtain ⟨address, lives, -, words⟩ := Scope.find_of_own activation.reach listed own
        obtain ⟨distance, place⟩ := words _ within
        rw [address_own lives place]
        exact follows.own lives place loaded
      next shared =>
        cases loaded
        obtain ⟨lives, declared, isGlobal, words⟩ :=
          Scope.find_of_shared activation.reach listed (eq_false_of_ne_true shared)
        have same : declared.name = cell.name := by simpa using List.find?_some isGlobal
        rw [address_shared lives, ← same]
        exact follows.shared.globals (List.mem_of_find?_eq_some isGlobal) (by omega)
    next => cases loaded

theorem assign_own (follows : activation.Follows pushed start store world) {name : String}
    {address : Address} {index distance : Nat} (value : Word)
    (enough : activation.top + pushed ≤ layout.room)
    (lives : activation.scope.find name = some address)
    (cell : address.cell? index = some distance) :
    activation.Follows pushed start (store.setOwn name index value)
      (world.store (above layout.bottom (activation.top - distance)) value) := by
  obtain ⟨above, below, within, -⟩ := height_own lives cell
  refine ⟨?_, follows.shared.store_stack value (by omega), ?_⟩
  · intro name' address' index' distance' value' lives' cell' given
    obtain ⟨-, below', within', -⟩ := height_own lives' cell'
    simp only [Store.setOwn] at given
    split at given
    next same =>
      obtain ⟨rfl, rfl⟩ := same
      obtain rfl : address' = address := Option.some.inj (lives'.symm.trans lives)
      obtain rfl : distance' = distance := Option.some.inj (cell'.symm.trans cell)
      cases given
      exact World.memory_store_self _ _ _
    next different =>
      have apart : distance' ≠ distance := by
        rintro rfl
        exact different (Scope.cell?_injective activation.reach lives' lives cell' cell)
      rw [World.memory_store_of_ne _ _ (layout.above_ne (by omega) (by omega) (by omega))]
      exact follows.own lives' cell' given
  · intro height other inside
    rw [World.memory_store_of_ne _ _ (layout.above_ne (by omega) (by omega) (by omega))]
    exact follows.kept height other inside

theorem assign_shared (follows : activation.Follows pushed start store world)
    {declared : Declaration} {index : Nat} (value : Word)
    (enough : activation.top + pushed ≤ layout.room) (listed : declared ∈ layout.globals)
    (within : index < declared.words) :
    activation.Follows pushed start (store.setShared declared.name index value)
      (world.store (above (machine.globalAddress declared.name) index) value) := by
  have apart : ∀ height, height < layout.room →
      above layout.bottom height ≠ above (machine.globalAddress declared.name) index :=
    fun height inside => Ne.symm (layout.apart listed within inside)
  refine ⟨?_, ⟨?_, follows.shared.channel⟩, ?_⟩
  · intro name address index distance value lives cell given
    obtain ⟨-, below, -, inside⟩ := height_own lives cell
    rw [World.memory_store_of_ne _ _ (apart _ (by omega))]
    exact follows.own lives cell given
  · intro declared' index' listed' within'
    simp only [Store.setShared]
    split
    next same =>
      obtain ⟨same, rfl⟩ := same
      rw [same]
      exact World.memory_store_self _ _ _
    next different =>
      rw [World.memory_store_of_ne _ _ fun same =>
        different (layout.distinct listed' listed within' within same)]
      exact follows.shared.globals listed' within'
  · intro height other inside
    rw [World.memory_store_of_ne _ _ (apart _ (by omega))]
    exact follows.kept height other inside

/-- **An assignment changes one word and keeps all others.** -/
theorem assign (follows : activation.Follows pushed start store world) {cell : Cell} {value : Word}
    {store' : Store} (enough : activation.top + pushed ≤ layout.room)
    (assigned : store.assign? (activation.scope.lookup? layout.globals) cell value =
      some store') :
    activation.Follows pushed start store'
      (world.store (activation.setting.address cell.name + cell.index) value) := by
  rw [← above_toNat]
  unfold Store.assign? at assigned
  split at assigned
  next => cases assigned
  next found listed =>
    split at assigned
    next within =>
      split at assigned
      next own =>
        cases assigned
        obtain ⟨address, lives, -, words⟩ := Scope.find_of_own activation.reach listed own
        obtain ⟨distance, place⟩ := words _ within
        rw [address_own lives place]
        exact follows.assign_own value enough lives place
      next shared =>
        cases assigned
        obtain ⟨lives, declared, isGlobal, words⟩ :=
          Scope.find_of_shared activation.reach listed (eq_false_of_ne_true shared)
        have same : declared.name = cell.name := by simpa using List.find?_some isGlobal
        rw [address_shared lives, ← same]
        exact follows.assign_shared value enough (List.mem_of_find?_eq_some isGlobal) (by omega)
    next => cases assigned

end Follows

end Activation

end ProcLang
