/-
Module: StoredsBench.Rbtree.Effects
Layer: Refinement
Purpose: The effects of `RbtreePmem` and `RbtreePmemTx`: how the stores to nodes change what the places
  of the pool hold, which transactions log what they store to, and rules for effects of an allowed kind.
Trusted boundary: none
Main exports: ext_content, logs_attach, logs_overwrite, logs_createRoot, logs_blackenRoot, Allows,
  emits_bstUpsert, emits_rotate, emits_fixViolation, emits_insert
-/
import StoredsBench.Rbtree.Pool

namespace StoredsBench.Rbtree

open Lib Lib.RedBlack

/-! ### What places hold -/

theorem colorByte_injective {color other : Color} (same : colorByte color = colorByte other) :
    color = other := by
  cases color <;> cases other <;> first | rfl | cases same

/-- The members of a node determine it. -/
theorem RbNode.ext_content {node other : RbNode}
    (same : ∀ field, node.content field = other.content field) : node = other := by
  obtain ⟨key, ⟨bytes, length⟩, left, right, parent, color⟩ := node
  obtain ⟨otherKey, ⟨otherBytes, otherLength⟩, otherLeft, otherRight, otherParent, otherColor⟩ := other
  have keyEq : key = otherKey := Option.some.inj (Content.word.inj (same .key))
  have leftEq : left = otherLeft := Option.some.inj (Content.pointer.inj (same .left))
  have rightEq : right = otherRight := Option.some.inj (Content.pointer.inj (same .right))
  have parentEq : parent = otherParent := Option.some.inj (Content.pointer.inj (same .parent))
  have colorEq : color = otherColor :=
    colorByte_injective (Option.some.inj (Content.byte.inj (same .color)))
  have bytesEq : bytes = otherBytes := by
    apply List.ext_getElem (length.trans otherLength.symm)
    intro offset inside otherInside
    have byte := Content.byte.inj (same (.valueByte offset))
    simpa [List.getD_eq_getElem?_getD, inside, otherInside] using byte
  subst keyEq leftEq rightEq parentEq colorEq bytesEq
  rfl

theorem rootApart : RootApart readRoot := fun _ _ => rfl

/-- The change concerns this member only. -/
def Touches (field : RbField) (change : RbNode → RbNode) : Prop :=
  ∀ node other, other ≠ field → (change node).content other = node.content other

theorem touches_child (side : Side) (child : Ptr) :
    Touches (childField side) (RbNode.withChild side child) := by
  intro node other different
  cases side with
  | left => cases other <;> first | rfl | exact absurd rfl different
  | right => cases other <;> first | rfl | exact absurd rfl different

theorem touches_parent (parent : Ptr) : Touches .parent fun node => { node with parent := parent } := by
  intro node other different
  cases other <;> first | rfl | exact absurd rfl different

theorem touches_key (key : Key) : Touches .key fun node => { node with key := key } := by
  intro node other different
  cases other <;> first | rfl | exact absurd rfl different

theorem touches_color (color : Color) : Touches .color fun node => { node with color := color } := by
  intro node other different
  cases other <;> first | rfl | exact absurd rfl different

section Stores

variable {field : RbField} {change : RbNode → RbNode} {address : Ptr}

theorem Touches.kept (touches : Touches field change) (node changed : RbNode) (other : RbField)
    (changedEq : (.ok (change node) : Except Fault RbNode) = .ok changed)
    (outside : fieldBytes (R := Unit) address field (.node address other) = false) :
    changed.content other = node.content other := by
  cases changedEq
  apply touches
  rintro rfl
  simp [fieldBytes] at outside

theorem value_kept (value : Value) (node changed : RbNode) (field : RbField)
    (changedEq : (.ok { node with value := node.value.copyString value } : Except Fault RbNode) =
      .ok changed)
    (outside : stringBytes address (value.chars.length + 1) (.node address field) = false) :
    changed.content field = node.content field := by
  cases changedEq
  cases field with
  | valueByte offset =>
      have behind : value.chars.length + 1 ≤ offset := by simpa [stringBytes] using outside
      simp only [RbNode.content, List.getD_eq_getElem?_getD, node.value.copyString_behind value behind]
  | _ => rfl

theorem node_kept (contents node changed : RbNode) (field : RbField)
    (_ : (.ok contents : Except Fault RbNode) = .ok changed)
    (outside : nodeBytes (R := Unit) address (.node address field) = false) :
    changed.content field = node.content field := by
  simp [nodeBytes] at outside

/-- A store to the pool's root object. -/
theorem storeRoot_frames (root : Ptr) (before : Store RbNode Ptr) (value : Unit)
    (after : Store RbNode Ptr) (ran : Prog.setRoot root before = .ok (value, after)) (place : RbPlace) :
    (Effect.store (memberBytes ())).Frames place (readPool before place) (readPool after place) := by
  cases ran
  cases place with
  | root member =>
      constructor
      · intro outside
        cases outside
      · constructor
        · intro missing
          cases missing
        · intro missing
          cases missing
  | node other field => exact ⟨fun _ => rfl, Iff.rfl⟩

end Stores

/-! ### Transactions that log their stores -/

section Logged

variable {covered : RbPlace → Bool} {garbage : Ptr → RbNode} {behind : RbPlace → RbPlace → Bool}
  {address : Ptr}

theorem logs_addRange (range : RbPlace → Bool) :
    Logs readPool covered ((RbtreePmemTx.pool garbage behind).mode.addRange range)
      fun _ more => Extends covered more ∧ Extends range more := Mode.logs_addRange covered range

theorem logs_storeField {field : RbField} {change : RbNode → RbNode} (touches : Touches field change)
    (covers : Covers covered address) :
    Logs readPool covered (storeField field change address) fun _ more => more = covered := by
  apply Logs.modify rootApart
  · exact touches.kept
  · intro place inside
    obtain rfl := eq_of_fieldBytes inside
    exact covers field

theorem logs_storeValue {value : Value} (covers : Covers covered address) :
    Logs readPool covered (storeValue value address) fun _ more => more = covered := by
  apply Logs.modify rootApart
  · exact value_kept value
  · intro place inside
    cases place with
    | root member => cases inside
    | node other field =>
        cases field with
        | valueByte offset =>
            have both : other = address ∧ offset < value.chars.length + 1 := by
              simpa [stringBytes] using inside
            obtain ⟨rfl, _⟩ := both
            exact covers (.valueByte offset)
        | _ => cases inside

theorem logs_storeNode {contents : RbNode} (covers : Covers covered address) :
    Logs readPool covered (storeNode contents address) fun _ more => more = covered := by
  apply Logs.modify rootApart
  · exact node_kept contents
  · intro place inside
    cases place with
    | root member => cases inside
    | node other field =>
        obtain rfl : other = address := by simpa [nodeBytes] using inside
        exact covers field

/-- `create_new_node` in a transaction: the new node is covered. -/
theorem logs_createNewNode (key : Key) (value : Value) :
    Logs readPool covered ((RbtreePmemTx.pool garbage behind).createNewNode key value)
      fun address more => Extends covered more ∧ Covers more address := by
  apply (Mode.logs_allocate rootApart garbage covered).bind
  rintro address _ rfl
  apply (logs_addRange _).bind
  rintro _ more ⟨grows, own⟩
  apply (logs_storeNode own.covers_node).bind
  rintro _ _ rfl
  apply EffectLogic.Holds.pure
  refine ⟨?_, own.covers_node⟩
  intro place inside
  apply grows
  simp [inside]

theorem logs_persist (range : RbPlace → Bool) :
    Logs readPool covered ((RbtreePmemTx.pool garbage behind).mode.persist range)
      fun _ more => more = covered := EffectLogic.Holds.pure rfl

/-- The code of `attach`'s transaction. -/
theorem logs_attach (side : Side) (current : Ptr) (key : Key) (value : Value) :
    Logs readPool covered (do
        (RbtreePmemTx.pool garbage behind).mode.addRange (nodeBytes current)
        let newNode ← (RbtreePmemTx.pool garbage behind).createNewNode key value
        storeChild side newNode current
        storeParent current newNode
        (RbtreePmemTx.pool garbage behind).mode.persist
          ((RbtreePmemTx.pool garbage behind).rangeFrom current (childField side))
        return newNode) fun _ _ => True := by
  apply (logs_addRange _).bind
  rintro _ ranged ⟨_, own⟩
  apply (logs_createNewNode key value).bind
  rintro newNode created ⟨grows, covers⟩
  apply (logs_storeField (touches_child side newNode) (grows.covers own.covers_node)).bind
  rintro _ _ rfl
  apply (logs_storeField (touches_parent current) covers).bind
  rintro _ _ rfl
  apply (logs_persist _).bind
  intro _ _ _
  exact EffectLogic.Holds.pure trivial

theorem logs_overwrite (current : Ptr) (value : Value) :
    Logs readPool covered (do
        (RbtreePmemTx.pool garbage behind).mode.addRange (nodeBytes current)
        storeValue value current
        (RbtreePmemTx.pool garbage behind).mode.persist
          (stringBytes current (value.chars.length + 1))) fun _ _ => True := by
  apply (logs_addRange _).bind
  rintro _ ranged ⟨_, own⟩
  apply (logs_storeValue own.covers_node).bind
  intro _ _ _
  exact EffectLogic.Holds.pure trivial

theorem logs_storeRoot (root : Ptr) (covers : covered (.root ()) = true) :
    Logs readPool covered (storeRoot root) fun _ more => more = covered := by
  apply Logs.store
  · intro place inside
    obtain rfl := eq_of_memberBytes inside
    exact covers
  · exact storeRoot_frames root
  · exact fun _ => rfl

theorem logs_createRoot (key : Key) (value : Value) :
    Logs readPool covered (do
        (RbtreePmemTx.pool garbage behind).mode.addRange (memberBytes ())
        let root ← (RbtreePmemTx.pool garbage behind).createNewNode key value
        storeRoot root
        return root) fun _ _ => True := by
  apply (logs_addRange _).bind
  rintro _ ranged ⟨_, own⟩
  apply (logs_createNewNode key value).bind
  rintro root created ⟨grows, _⟩
  apply (logs_storeRoot root (grows _ (own _ rfl))).bind
  intro _ _ _
  exact EffectLogic.Holds.pure trivial

theorem logs_blackenRoot : Logs readPool covered (do
        let root ← Prog.getRoot
        (RbtreePmemTx.pool garbage behind).mode.addRange (nodeBytes root)
        storeColor .black root
        (RbtreePmemTx.pool garbage behind).mode.persist (nodeBytes root)) fun _ _ => True := by
  apply (EffectLogic.Holds.getRoot fun _ => rfl).bind
  rintro root _ rfl
  apply (logs_addRange _).bind
  rintro _ ranged ⟨_, own⟩
  apply (logs_storeField (touches_color .black) own.covers_node).bind
  intro _ _ _
  exact EffectLogic.Holds.pure trivial

end Logged

/-! ### Effects of an allowed kind -/

/-- Transactions are allowed. -/
structure Transacts (allowed : Effect RbPlace → Store RbNode Ptr → Prop) : Prop where
  begins : ∀ memory, allowed .begin memory
  commits : ∀ memory, allowed .commit memory

/-- Stores and snapshots of nodes are allowed, and to persist values. -/
structure Writes (pool : RbPool) (allowed : Effect RbPlace → Store RbNode Ptr → Prop) : Prop where
  stores : ∀ range memory, allowed (.store range) memory
  snapshots : pool.mode = .transactional → ∀ address memory, allowed (.snapshot (nodeBytes address)) memory
  values : pool.mode = .persistent → ∀ address count memory,
    allowed (.persist (stringBytes address count)) memory

/-- A node may be allocated. -/
def Allocates (pool : RbPool) (allowed : Effect RbPlace → Store RbNode Ptr → Prop) : Prop :=
  ∀ address memory, memory.heap.get? address = some (pool.garbage address) →
    allowed (pool.mode.allocation (nodeBytes address)) memory

/-- Everything inside of transactions is allowed but to persist whole nodes. -/
structure Allows (pool : RbPool) (allowed : Effect RbPlace → Store RbNode Ptr → Prop) : Prop
    extends Writes pool allowed where
  allocates : Allocates pool allowed
  members : pool.mode = .persistent → ∀ address field memory, RbField.left.rank ≤ field.rank →
    allowed (.persist (pool.rangeFrom address field)) memory
  roots : pool.mode = .persistent → ∀ memory, allowed (.persist pool.rootRange) memory

section Emitted

variable {pool : RbPool} {allowed : Effect RbPlace → Store RbNode Ptr → Prop}

theorem emits_storeField {field : RbField} {change : RbNode → RbNode} {address : Ptr} {running : Bool}
    (writes : Writes pool allowed) (touches : Touches field change) :
    Emits readPool running allowed (storeField field change address) :=
  Emits.modify rootApart touches.kept fun memory => writes.stores _ memory

theorem emits_addRange (writes : Writes pool allowed) (address : Ptr) :
    Emits readPool pool.mode.inside allowed (pool.mode.addRange (nodeBytes address)) :=
  Mode.emits_addRange fun mode memory => writes.snapshots mode address memory

theorem emits_transaction {α : Type} {code : RbPmemProg α} (transacts : Transacts allowed)
    (emits : Emits readPool pool.mode.inside allowed code) :
    Emits readPool false allowed (pool.mode.transaction code) :=
  Mode.emits_transaction emits transacts.begins transacts.commits

theorem emits_createNewNode (writes : Writes pool allowed) (allocates : Allocates pool allowed) (key : Key) (value : Value) :
    Emits readPool pool.mode.inside allowed (pool.createNewNode key value) := by
  apply (Mode.emits_allocate rootApart allocates).bind
  intro address
  apply (emits_addRange writes _).bind
  intro _
  apply Emits.bind
  · exact Emits.modify rootApart (node_kept _) fun memory => writes.stores _ memory
  · exact fun _ => Emits.pure address

theorem emits_reparent (allows : Allows pool allowed) (child parent : Ptr) :
    Emits readPool pool.mode.inside allowed (pool.reparent child parent) := by
  apply EffectLogic.Holds.branch
  · intro _
    apply (emits_addRange allows.toWrites _).bind
    intro _
    apply (emits_storeField allows.toWrites (touches_parent parent)).bind
    intro _
    exact Mode.emits_persist fun mode memory => allows.members mode child .parent memory (by decide)
  · intro _
    exact Emits.pure ()

theorem emits_replaceChild (allows : Allows pool allowed) (parent old new : Ptr) :
    Emits readPool pool.mode.inside allowed (pool.replaceChild parent old new) := by
  apply EffectLogic.Holds.branch
  · intro _
    apply Emits.getRoot.bind
    intro root
    apply (emits_addRange allows.toWrites _).bind
    intro _
    apply Emits.bind
    · exact Emits.store (fun memory => allows.stores _ memory) (storeRoot_frames new)
    · intro _
      exact Mode.emits_persist fun mode memory => allows.roots mode memory
  · intro _
    apply (emits_addRange allows.toWrites _).bind
    intro _
    apply (Emits.load parent).bind
    intro contents
    apply EffectLogic.Holds.branch
    · intro _
      apply (emits_storeField allows.toWrites (touches_child .left new)).bind
      intro _
      exact Mode.emits_persist fun mode memory =>
        allows.members mode parent .left memory (Nat.le_refl _)
    · intro _
      apply (emits_storeField allows.toWrites (touches_child .right new)).bind
      intro _
      exact Mode.emits_persist fun mode memory => allows.members mode parent .right memory (by decide)

theorem emits_rotate (allows : Allows pool allowed) (side : Side) (ptr : Ptr) :
    Emits readPool pool.mode.inside allowed (pool.rotate side ptr) := by
  apply (emits_addRange allows.toWrites _).bind
  intro _
  apply (Emits.load ptr).bind
  intro contents
  apply (emits_addRange allows.toWrites _).bind
  intro _
  apply (Emits.load _).bind
  intro promoted
  apply (emits_storeField allows.toWrites (touches_child _ _)).bind
  intro _
  apply (emits_reparent allows _ _).bind
  intro _
  apply (Emits.load ptr).bind
  intro contents
  apply (emits_storeField allows.toWrites (touches_parent _)).bind
  intro _
  apply (emits_replaceChild allows _ _ _).bind
  intro _
  apply (emits_storeField allows.toWrites (touches_child _ _)).bind
  intro _
  exact emits_storeField allows.toWrites (touches_parent _)

theorem emits_attach (allows : Allows pool allowed) (transacts : Transacts allowed) (side : Side) (current : Ptr) (key : Key)
    (value : Value) : Emits readPool false allowed (pool.attach side current key value) := by
  apply emits_transaction transacts
  apply (emits_addRange allows.toWrites _).bind
  intro _
  apply (emits_createNewNode allows.toWrites allows.allocates key value).bind
  intro newNode
  apply (emits_storeField allows.toWrites (touches_child _ _)).bind
  intro _
  apply (emits_storeField allows.toWrites (touches_parent _)).bind
  intro _
  apply Emits.bind
  · apply Mode.emits_persist
    intro mode memory
    apply allows.members mode
    cases side <;> decide
  · exact fun _ => Emits.pure newNode

theorem emits_overwrite (writes : Writes pool allowed) (transacts : Transacts allowed) (current : Ptr) (value : Value) :
    Emits readPool false allowed (pool.overwrite current value) := by
  apply emits_transaction transacts
  apply (emits_addRange writes _).bind
  intro _
  apply Emits.bind
  · exact Emits.modify rootApart (value_kept value) fun memory => writes.stores _ memory
  · intro _
    exact Mode.emits_persist fun mode memory => writes.values mode current _ memory

theorem emits_bstUpsert (allows : Allows pool allowed) (transacts : Transacts allowed) (fuel : Nat) (current : Ptr) (key : Key)
    (value : Value) : Emits readPool false allowed (pool.bstUpsert fuel current key value) := by
  induction fuel generalizing current with
  | zero => exact EffectLogic.Holds.fault _
  | succ fuel inductionHypothesis =>
      apply EffectLogic.Holds.branch
      · intro _
        exact EffectLogic.Holds.fault _
      · intro _
        apply (Emits.load current).bind
        intro contents
        apply EffectLogic.Holds.branch
        · intro _
          exact (emits_overwrite allows.toWrites transacts current value).bind fun _ => Emits.pure null
        · intro _
          apply EffectLogic.Holds.branch
          · intro _
            exact emits_attach allows transacts _ _ key value
          · intro _
            exact inductionHypothesis _

theorem emits_isRed (address : Ptr) : Emits readPool pool.mode.inside allowed (isRed address) := by
  apply EffectLogic.Holds.branch
  · intro _
    exact Emits.pure false
  · intro _
    exact (Emits.load address).bind fun contents => Emits.pure _

theorem emits_straighten (allows : Allows pool allowed) (side : Side) (current parent : Ptr) :
    Emits readPool pool.mode.inside allowed (pool.straighten side current parent) := by
  apply (Emits.load parent).bind
  intro contents
  apply EffectLogic.Holds.branch
  · intro _
    apply (emits_rotate allows side parent).bind
    intro _
    exact (Emits.load parent).bind fun contents => Emits.pure _
  · intro _
    exact Emits.pure parent

theorem emits_swapColors (writes : Writes pool allowed) (parent grandparent : Ptr) :
    Emits readPool pool.mode.inside allowed (RbPool.swapColors parent grandparent) := by
  apply (Emits.load parent).bind
  intro parentContents
  apply (Emits.load grandparent).bind
  intro grandparentContents
  apply (emits_storeField writes (touches_color _)).bind
  intro _
  exact emits_storeField writes (touches_color _)

theorem emits_turn (allows : Allows pool allowed) (side : Side) (current parent grandparent : Ptr) :
    Emits readPool pool.mode.inside allowed (pool.turn side current parent grandparent) := by
  apply (emits_straighten allows side current parent).bind
  intro promoted
  apply (emits_rotate allows _ _).bind
  intro _
  exact emits_swapColors allows.toWrites promoted grandparent

/-- The three nodes of a recolouring are persisted as a whole. -/
theorem emits_recolor (writes : Writes pool allowed) {grandparent parent uncle : Ptr}
    (whole : pool.mode = .persistent → ∀ address ∈ [grandparent, parent, uncle], ∀ memory,
      allowed (.persist (nodeBytes address)) memory) :
    Emits readPool pool.mode.inside allowed (pool.recolor grandparent parent uncle) := by
  apply (emits_addRange writes _).bind
  intro _
  apply (emits_storeField writes (touches_color _)).bind
  intro _
  apply (emits_storeField writes (touches_color _)).bind
  intro _
  apply (emits_storeField writes (touches_color _)).bind
  intro _
  apply (Mode.emits_persist fun mode => whole mode grandparent (by simp)).bind
  intro _
  apply (Mode.emits_persist fun mode => whole mode parent (by simp)).bind
  intro _
  exact Mode.emits_persist fun mode => whole mode uncle (by simp)

/-- The code of the transaction of `rebalance`. -/
def RbPool.rebalancing (pool : RbPool) (side : Side) (current parent grandparent : Ptr) :
    RbPmemProg Ptr := do
  pool.mode.addRange (nodeBytes parent)
  pool.mode.addRange (nodeBytes grandparent)
  let grandparentContents ← Prog.load grandparent
  let uncle := grandparentContents.child side.other
  let redUncle ← isRed uncle
  if redUncle then
    pool.recolor grandparent parent uncle
    return grandparent
  else
    pool.turn side current parent grandparent
    return parent

theorem emits_rebalancing (allows : Allows pool allowed)
    (whole : pool.mode = .persistent → ∀ address memory, allowed (.persist (nodeBytes address)) memory)
    (side : Side) (current parent grandparent : Ptr) :
    Emits readPool pool.mode.inside allowed (pool.rebalancing side current parent grandparent) := by
  apply (emits_addRange allows.toWrites _).bind
  intro _
  apply (emits_addRange allows.toWrites _).bind
  intro _
  apply (Emits.load grandparent).bind
  intro contents
  apply (emits_isRed _).bind
  intro redUncle
  apply EffectLogic.Holds.branch
  · intro _
    apply (emits_recolor allows.toWrites fun mode address _ => whole mode address).bind
    intro _
    exact Emits.pure grandparent
  · intro _
    exact (emits_turn allows side current parent grandparent).bind fun _ => Emits.pure parent

theorem emits_fixLoop {rebalance : Side → Ptr → Ptr → Ptr → RbPmemProg Ptr}
    (emits : ∀ side current parent grandparent,
      Emits readPool false allowed (rebalance side current parent grandparent))
    (fuel : Nat) (current : Ptr) : Emits readPool false allowed (fixLoop rebalance fuel current) := by
  induction fuel generalizing current with
  | zero => exact EffectLogic.Holds.fault _
  | succ fuel inductionHypothesis =>
      apply Emits.getRoot.bind
      intro root
      apply EffectLogic.Holds.branch
      · intro _
        exact Emits.pure ()
      · intro _
        apply (Emits.load current).bind
        intro contents
        apply EffectLogic.Holds.branch
        · intro _
          exact Emits.pure ()
        · intro _
          apply (Emits.load contents.parent).bind
          intro parentContents
          apply EffectLogic.Holds.branch
          · intro _
            apply (Emits.load parentContents.parent).bind
            intro grandparentContents
            exact (emits _ _ _ _).bind inductionHypothesis
          · intro _
            exact Emits.pure ()

/-- `fix_violation`. -/
theorem emits_fixes (allows : Allows pool allowed) (transacts : Transacts allowed)
    (whole : pool.mode = .persistent → ∀ address memory, allowed (.persist (nodeBytes address)) memory)
    (current : Ptr) : Emits readPool false allowed (pool.fixViolation current) := by
  apply Emits.heapSize.bind
  intro bound
  apply Emits.bind
  · apply emits_fixLoop
    intro side current parent grandparent
    exact emits_transaction transacts (emits_rebalancing allows whole side current parent grandparent)
  · intro _
    apply emits_transaction transacts
    apply Emits.getRoot.bind
    intro root
    apply (emits_addRange allows.toWrites _).bind
    intro _
    apply (emits_storeField allows.toWrites (touches_color .black)).bind
    intro _
    exact Mode.emits_persist fun mode => whole mode root

theorem emits_createRoot (writes : Writes pool allowed) (transacts : Transacts allowed) (allocates : Allocates pool allowed)
    (member : pool.mode = .transactional → ∀ memory, allowed (.snapshot (memberBytes ())) memory)
    (key : Key) (value : Value) : Emits readPool false allowed (pool.createRoot key value) := by
  apply emits_transaction transacts
  apply (Mode.emits_addRange member).bind
  intro _
  apply (emits_createNewNode writes allocates key value).bind
  intro root
  apply Emits.bind
  · exact Emits.store (fun memory => writes.stores _ memory) (storeRoot_frames root)
  · exact fun _ => Emits.pure root

end Emitted

/-! ### All effects -/

theorem reading_check : Reading RbtreePmem.check := by
  apply Reading.bind Reading.getAux
  intro rootOid
  apply Reading.branch
  · intro _
    exact Reading.fault _
  · intro _
    exact Reading.pure ()

/-- Whatever happens is appended to the trail. -/
abbrev Anything : Effect RbPlace → Store RbNode Ptr → Prop := fun _ _ => True

section Appending

variable {pool : RbPool}

theorem allows_anything (pool : RbPool) : Allows pool Anything := by
  constructor
  · constructor <;> intros <;> trivial
  · intro address memory live
    trivial
  · intros
    trivial
  · intros
    trivial

theorem transacts_anything : Transacts Anything := ⟨fun _ => trivial, fun _ => trivial⟩

theorem emits_fixViolation (current : Ptr) :
    Emits readPool false Anything (pool.fixViolation current) :=
  emits_fixes (allows_anything pool) transacts_anything (fun _ _ _ => trivial) current

theorem emits_insert (key : Key) (value : Value) :
    Emits readPool false Anything (pool.insert key value) := by
  have checks : Emits readPool false Anything (onMemory RbtreePmem.check) :=
    EffectLogic.Holds.reads reading_check fun _ => trivial
  apply checks.bind
  intro _
  apply Emits.getRoot.bind
  intro root
  apply EffectLogic.Holds.branch
  · intro _
    apply (emits_createRoot (allows_anything pool).toWrites transacts_anything
      (allows_anything pool).allocates (fun _ _ => trivial) key value).bind
    intro root
    exact (emits_fixViolation root).bind fun _ => Emits.pure 1
  · intro _
    apply Emits.heapSize.bind
    intro bound
    apply (emits_bstUpsert (allows_anything pool) transacts_anything bound root key value).bind
    intro newNode
    apply EffectLogic.Holds.branch
    · intro _
      exact Emits.pure 1
    · intro _
      exact (emits_fixViolation newNode).bind fun _ => Emits.pure 1

theorem emits_insertEach (pairs : List (Key × Value)) :
    Emits readPool false Anything (insertEach pool.insert pairs) := by
  induction pairs with
  | nil => exact Emits.pure ()
  | cons pair rest inductionHypothesis =>
      exact (emits_insert pair.1 pair.2).bind fun _ => inductionHypothesis

end Appending

end StoredsBench.Rbtree
