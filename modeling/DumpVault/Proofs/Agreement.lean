import DumpVault.Config.Document
import DumpVault.Proofs.Readings

/-!
# One value at one place

What is read at a node depends on the node alone: two readings that give a value give the same one,
however deep they start, wherever their faults would be placed and however many aliases have been
followed before.
-/
namespace DumpVault
open Yaml Decode

namespace Yaml.Decode

/-- Where both readings give a value, it is the same. -/
def Agree {α : Type} (x y : Decode α) : Prop := ∀ a b, Gives x a → Gives y b → a = b

variable {α β : Type} {x y : Decode α} {f g : α → Decode β} {d : Document} {n : Node}
  {path path' : Path} {depth depth' : Nat} {mark mark' : Mark} {expected expected' : String}

theorem Agree.of_pure (a : α) : Agree (pure a) (pure a) :=
  fun _ _ hx hy => (gives_pure.mp hx).trans (gives_pure.mp hy).symm

theorem Agree.of_throw {fault : DecodeFault} : Agree (throw fault) y :=
  fun _ _ hx _ => (not_gives_throw hx).elim

theorem Agree.of_throw_right {fault : DecodeFault} : Agree x (throw fault) :=
  fun _ _ _ hy => (not_gives_throw hy).elim

theorem Agree.bind (h : Agree x y) (hnext : ∀ a, Agree (f a) (g a)) :
    Agree (x >>= f) (y >>= g) := by
  intro b b' hx hy
  obtain ⟨a, ha, hb⟩ := hx.of_bind
  obtain ⟨a', ha', hb'⟩ := hy.of_bind
  obtain rfl := h a a' ha ha'
  exact hnext a b b' hb hb'

theorem Agree.map {h : α → β} (hxy : Agree x y) : Agree (h <$> x) (h <$> y) := by
  rw [map_eq_pure_bind, map_eq_pure_bind]
  exact hxy.bind fun a => .of_pure (h a)

theorem Agree.ite {p : Prop} [Decidable p] {x' y' : Decode α} (h : Agree x y) (h' : Agree x' y') :
    Agree (if p then x else x') (if p then y else y') := by
  split
  · exact h
  · exact h'

theorem Agree.placed (h : Agree x y) : Agree (placed mark path x) (placed mark' path' y) :=
  fun a b hx hy => h a b (gives_placed.mp hx) (gives_placed.mp hy)

theorem gives_liftM {r : Except DecodeFault α} {a : α} :
    Gives (liftM r : Decode α) a ↔ r = .ok a := by
  cases r with
  | error fault => exact ⟨fun h => (not_gives_throw h).elim, nofun⟩
  | ok value => exact gives_pure.trans ⟨fun h => h ▸ rfl, fun h => (Except.ok.inj h).symm⟩

theorem Agree.of_liftM (r : Except DecodeFault α) : Agree (liftM r : Decode α) (liftM r) :=
  fun _ _ hx hy => Except.ok.inj ((gives_liftM.mp hx).symm.trans (gives_liftM.mp hy))

theorem Agree.of_resolve (d : Document) (n : Node) : Agree (d.resolve n) (d.resolve n) :=
  fun _ _ hx hy => hx.target.trans hy.target.symm

theorem Agree.visit {read read' : Node → Decode α} (h : ∀ n, Agree (read n) (read' n)) :
    Agree (visit d path n read) (visit d path' n read') :=
  fun a b hx hy => h _ a b hx.visited hy.visited

theorem Agree.deeper {read read' : Nat → Decode α}
    (h : ∀ k < depth, ∀ k', Agree (read k) (read' k')) :
    Agree (deeper mark depth read) (deeper mark' depth' read') := by
  cases depth with
  | zero => exact .of_throw
  | succ depth =>
    cases depth' with
    | zero => exact .of_throw_right
    | succ depth' => exact h depth depth.lt_add_one depth'

theorem Agree.mapM {items : List α} {f g : α → Decode β} (h : ∀ a ∈ items, Agree (f a) (g a)) :
    Agree (items.mapM f) (items.mapM g) := by
  induction items with
  | nil => exact .of_pure []
  | cons a items ih =>
    obtain ⟨hfirst, hrest⟩ := List.forall_mem_cons.mp h
    rw [List.mapM_cons, List.mapM_cons]
    exact hfirst.bind fun b => (ih hrest).bind fun bs => .of_pure (b :: bs)

theorem Agree.foldlM {items : List α} {f g : β → α → Decode β} {b : β}
    (h : ∀ b a, Agree (f b a) (g b a)) : Agree (items.foldlM f b) (items.foldlM g b) := by
  induction items generalizing b with
  | nil => exact .of_pure b
  | cons a items ih =>
    rw [List.foldlM_cons, List.foldlM_cons]
    exact (h b a).bind fun _ => ih

/-- From one kind of place comes one value. -/
theorem Drawn.unique {place : Node → Prop} {value : Nat → Path → Node → Decode α} {default a b : α}
    (hvalue : ∀ depth path depth' path' n, Agree (value depth path n) (value depth' path' n))
    (ha : Drawn place value default a) (hb : Drawn place value default b) : a = b := by
  cases ha with
  | absent none =>
    cases hb with
    | absent => rfl
    | entry only => exact absurd ((only _).mpr rfl) (none _)
  | entry only depth path read =>
    cases hb with
    | absent none => exact absurd ((only _).mpr rfl) (none _)
    | entry only' depth' path' read' =>
      obtain rfl := (only _).mp ((only' _).mpr rfl)
      exact hvalue depth path depth' path' _ a b read read'

theorem agree_text : Agree (text d expected path n) (text d expected' path' n) :=
  fun _ _ hx hy => Option.some.inj (hx.text?.symm.trans hy.text?)

theorem bool_eq_visit : bool d path n = visit d path n fun
      | .scalar mark tag text style =>
        match Atom.bool? text with
        | some b =>
          if style == .plain || (style == .literal && tag == some Node.boolTag) then return b
          else throw ((Node.scalar mark tag text style).mismatch d "a boolean")
        | none => throw ((Node.scalar mark tag text style).mismatch d "a boolean")
      | target => throw (target.mismatch d "a boolean") := by
  cases n with
  | aliasOf mark id =>
    simp only [bool, visit]
    congr 2
    funext target
    cases target <;> rfl
  | _ => rfl

theorem agree_bool : Agree (bool d path n) (bool d path' n) := by
  rw [bool_eq_visit, bool_eq_visit]
  refine .visit fun target => ?_
  cases target with
  | scalar mark tag text style =>
    dsimp only
    cases Atom.bool? text with
    | none => exact .of_throw
    | some b => exact .ite (.of_pure b) .of_throw
  | _ => exact .of_throw

theorem agree_option {value value' : Node → Decode α} (h : ∀ n, Agree (value n) (value' n)) :
    Agree (option d n value) (option d n value') := by
  cases n with
  | cut => exact .of_throw
  | _ =>
    simp only [option]
    refine (Agree.of_resolve d _).bind fun target => ?_
    cases target with
    | empty => exact .of_pure none
    | scalar mark tag text style =>
      refine .ite (h _).map ?_
      cases tag with
      | none => exact .ite (.of_pure none) (h _).map
      | some tag => exact .ite (.ite (.of_pure none) .of_throw) (.ite (.of_pure none) (h _).map)
    | _ => exact (h _).map

theorem list_eq_visit {value : Nat → Path → Node → Decode α} :
    list d path depth value n = visit d path n fun
      | .sequence mark _ items =>
        deeper mark depth fun depth =>
          (items.zipIdx).mapM fun (item, i) => do
            match item with
            | .cut => throw d.cutFault
            | _ => value depth (path.item i) item
      | target => if target.isEmptyPlain then return [] else throw (target.mismatch d "a sequence")
    := by
  cases n with
  | aliasOf mark id =>
    simp only [list, visit]
    congr 2
    funext target
    cases target <;> rfl
  | _ => rfl

theorem agree_list {value value' : Nat → Path → Node → Decode α}
    (h : ∀ depth path depth' path' n, Agree (value depth path n) (value' depth' path' n)) :
    Agree (list d path depth value n) (list d path' depth' value' n) := by
  rw [list_eq_visit, list_eq_visit]
  refine .visit fun target => ?_
  cases target with
  | sequence mark tag items =>
    refine .deeper fun depth _ depth' => .mapM fun (item, i) _ => ?_
    cases item with
    | cut => exact .of_throw
    | _ => exact h _ _ _ _ _
  | _ => exact .ite (.of_pure []) .of_throw

theorem agree_scalarContent {tag : Option String} {s : String} {style : ScalarStyle} :
    Agree (scalarContent tag s style expected) (scalarContent tag s style expected') := by
  rw [scalarContent, scalarContent]
  refine .ite .of_throw ((Agree.of_liftM _).bind fun atom => ?_)
  cases atom with
  | wideInt => exact .of_throw
  | _ => exact .of_pure _

theorem content_eq_visit : content d depth path n = visit d path n fun
      | .scalar _ tag text style => scalarContent tag text style "any value"
      | .sequence mark tag items => do
        if (Node.variantTag? tag).isSome then throw variantFault
        deeper mark depth fun depth =>
          .sequence <$> items.zipIdx.mapM fun (item, i) => content d depth (path.item i) item
      | .mapping mark tag entries => do
        if (Node.variantTag? tag).isSome then throw variantFault
        deeper mark depth fun depth =>
          .mapping <$> entries.mapM fun (k, v) => do
            let k' ← content d depth path k
            let v' ← content d depth (valuePath path k) v
            return (k', v')
      | _ => throw d.cutFault := by
  cases depth <;> cases n <;> rfl

theorem agree_content : Agree (content d depth path n) (content d depth' path' n) := by
  -- The induction is on the first depth alone: the second may run out earlier or later.
  induction depth using Nat.strongRecOn generalizing depth' path path' n with
  | ind depth ih =>
    rw [content_eq_visit, content_eq_visit]
    refine .visit fun target => ?_
    cases target with
    | scalar => exact agree_scalarContent
    | sequence mark tag items =>
      refine .ite .of_throw (.deeper fun k hk k' => ?_)
      exact (Agree.mapM fun _ _ => ih k hk).map
    | mapping mark tag entries =>
      refine .ite .of_throw (.deeper fun k hk k' => ?_)
      exact (Agree.mapM fun _ _ => (ih k hk).bind fun _ => (ih k hk).bind fun _ =>
        .of_pure _).map
    | _ => exact .of_throw

theorem variant_eq_visit {r : TagRule} : variant d r path n = visit d path n (fun target => do
    let name ← text d "variant identifier" path target
    liftM (r.checkVariant name)) := by
  cases n <;> rfl

theorem agree_variant {r : TagRule} : Agree (variant d r path n) (variant d r path' n) := by
  rw [variant_eq_visit, variant_eq_visit]
  exact .visit fun target => agree_text.bind fun name => .of_liftM _

theorem agree_tagOrContent {r : TagRule} :
    Agree (tagOrContent d r depth path n) (tagOrContent d r depth' path' n) := by
  cases n with
  | cut => exact .of_throw
  | _ =>
    simp only [tagOrContent]
    refine .placed ((Agree.of_resolve d _).bind fun target => ?_)
    cases target with
    | scalar mark tag text style =>
      refine .placed (agree_scalarContent.bind fun c => ?_)
      cases c with
      | atom a =>
        cases a with
        | text s => exact .of_pure _
        | _ => exact .of_pure _
      | _ => exact .of_pure _
    | _ => exact agree_content.map

theorem tagged_eq_visit {r : TagRule} : tagged d r depth path n = visit d path n fun
      | .sequence mark tag items => do
        if (Node.variantTag? tag).isSome then throw (.invalidType "enum" r.expected)
        deeper mark depth fun depth => do
          match items with
          | [] => throw (.missingField r.tag)
          | first :: rest =>
            let v ← variant d r (path.item 0) first
            let rest ← rest.zipIdx.mapM fun (item, i) => content d depth (path.item (i + 1)) item
            return (v, .sequence rest)
      | .mapping mark tag entries => do
        if (Node.variantTag? tag).isSome then throw (.invalidType "enum" r.expected)
        deeper mark depth fun depth => do
          let (v, others) ← entries.foldlM (fun ((v : Option String), others) (key, value) => do
            match ← tagOrContent d r depth path key with
            | none =>
              if v.isSome then throw (.duplicateField r.tag)
              return (some (← variant d r (valuePath path key) value), others)
            | some key' =>
              let value' ← content d depth (valuePath path key) value
              return (v, others ++ [(key', value')])) (none, [])
          match v with
          | some v => return (v, .mapping others)
          | none => throw (.missingField r.tag)
      | .scalar _ tag text style => do
        if (Node.variantTag? tag).isSome then throw (.invalidType "enum" r.expected)
        let a ← liftM (Node.atom tag text style)
        throw (.invalidType a.described r.expected)
      | target => throw (target.mismatch d r.expected) := by
  cases n with
  | aliasOf mark id =>
    simp only [tagged, visit]
    congr 2
    funext target
    cases target <;> rfl
  | _ => rfl

theorem agree_tagged {r : TagRule} : Agree (tagged d r depth path n) (tagged d r depth' path' n) := by
  rw [tagged_eq_visit, tagged_eq_visit]
  refine .visit fun target => ?_
  cases target with
  | sequence mark tag items =>
    refine .ite .of_throw (.deeper fun depth _ depth' => ?_)
    cases items with
    | nil => exact .of_throw
    | cons first rest =>
      exact agree_variant.bind fun v => (Agree.mapM fun _ _ => agree_content).bind fun rest =>
        .of_pure _
  | mapping mark tag entries =>
    refine .ite .of_throw (.deeper fun depth _ depth' => ?_)
    refine (Agree.foldlM fun (v, others) (key, value) => ?_).bind fun (v, others) => ?_
    · cases v with
      | none => exact .of_throw
      | some v => exact .of_pure _
    · refine agree_tagOrContent.bind fun key' => ?_
      cases key' with
      | none => exact .ite .of_throw (agree_variant.bind fun v => .of_pure _)
      | some key' => exact agree_content.bind fun value' => .of_pure _
  | scalar mark tag text style =>
    exact .ite .of_throw ((Agree.of_liftM _).bind fun a => .of_throw)
  | _ => exact .of_throw

end Yaml.Decode

theorem SecretSource.agree_read {d : Document} {depth depth' : Nat} {path path' : Path} {n : Node} :
    Agree (SecretSource.read d depth path n) (SecretSource.read d depth' path' n) :=
  agree_tagged.bind fun _ => .of_liftM _

theorem Backend.agree_read {d : Document} {depth depth' : Nat} {path path' : Path} {n : Node} :
    Agree (Backend.read d depth path n) (Backend.read d depth' path' n) :=
  agree_tagged.bind fun _ => .of_liftM _

end DumpVault
