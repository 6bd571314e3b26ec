import Mcfunction.Proofs.Dump.Ranges
import Mcfunction.Proofs.Reading.Nodes
import Mcfunction.Proofs.Sexp
import Mcfunction.Proofs.Spans.Outline

/-!
# The Nodes of a View

The view of a document names its nodes and fields with words of its own, never with text of the
document. If the nodes of the document are nested in a text, then so are those of the view: most of
them stand where a node of the document stands. The places that a view computes itself, the parts
of a comment and of a resource location, are checked when they are computed, and a selector has room
for its target.

The text of the document makes a difference only to the places in a comment.

## Main results

* `Document.toSexp_sound`: the names of a view are words, and its places are nested if the
  document's are.
* `Document.toSexp_unplaced`: the nodes and fields of a view do not depend on the text.
-/

namespace Mcfunction

/-! ### Sound views -/

/-- Where a node of a view is. -/
def Sexp.span : Sexp → Span
  | .node _ _ span _ => span

/-- The one span lies in the other. -/
def Span.Within (inner outer : Span) : Prop :=
  outer.start ≤ inner.start ∧ inner.stop ≤ outer.stop

-- `nested` is what is known of the document. Names are words in the view of every document, so one
-- walk over the tree serves both: `nested` is false where only the names matter.

/-- The fields and kinds of the view are names, and if `nested`, each node stands inside of the
one around it. -/
inductive Sexp.Sound (nested : Prop) : Sexp → Prop
  /-- A node with the nodes in it. -/
  | node {field kind span children} : (∀ name, field = some name → Sexp.IsName name) →
      Sexp.IsName kind →
      (nested → span.start ≤ span.stop ∧ ∀ child ∈ children, child.span.Within span) →
      (∀ child ∈ children, Sound nested child) → Sound nested (.node field kind span children)

/-- The view that results, if any, is sound and stands at `span`. -/
def Views (nested : Prop) (span : Span) (result : Except Fault Sexp) : Prop :=
  ∀ sexp, result = .ok sexp → sexp.span = span ∧ sexp.Sound nested

/-- The views that result, if any, are sound and stand inside of `span`. -/
def ViewsIn (nested : Prop) (span : Span) (result : Except Fault (List Sexp)) : Prop :=
  ∀ sexps, result = .ok sexps →
    ∀ sexp ∈ sexps, sexp.Sound nested ∧ (nested → sexp.span.Within span)

/-- The node stands inside of `span`, and is well nested itself. -/
def Outline.Fits (text : String) (span : Span) (outline : Outline) : Prop :=
  outline.Nested text ∧ outline.span.Within span

/-- Where a chain of two steps has a result, both steps have one. -/
theorem Except.bind_eq_ok {ε α β : Type} {result : Except ε α} {f : α → Except ε β} {b : β}
    (h : result >>= f = .ok b) : ∃ a, result = .ok a ∧ f a = .ok b := by
  cases result with
  | error => cases h
  | ok a => exact ⟨a, rfl, h⟩

/-- Where a mapped result is there, so is the result it is mapped from. -/
theorem Except.map_eq_ok {ε α β : Type} {result : Except ε α} {f : α → β} {b : β}
    (h : result.map f = .ok b) : ∃ a, result = .ok a ∧ f a = b := by
  cases result with
  | error => cases h
  | ok a => exact ⟨a, rfl, Except.ok.inj h⟩

/-- An offset that is not beyond the largest one is the sum. -/
theorem offsetPast_eq_ok {offset count result : Nat} (h : offsetPast offset count = .ok result) :
    result = offset + count := by
  rw [offsetPast] at h
  split at h <;> cases h
  rfl

/-- A span that could be made has its ends in order. -/
theorem Span.between_eq_ok {start stop : Nat} {span : Span}
    (h : Span.between start stop = .ok span) : span = ⟨start, stop⟩ ∧ start ≤ stop := by
  rw [Span.between] at h
  split at h
  · cases h
    exact ⟨rfl, by assumption⟩
  · cases h

namespace Span.Within

variable {a b c : Span}

/-- A span lies in itself. -/
theorem refl (a : Span) : a.Within a :=
  ⟨Nat.le_refl _, Nat.le_refl _⟩

/-- What lies in a span lies in all that are around it. -/
theorem trans (h : a.Within b) (h' : b.Within c) : a.Within c :=
  ⟨h'.1.trans h.1, h.2.trans h'.2⟩

end Span.Within

variable {nested : Prop} {text : String} {span : Span}

namespace Outline.Nested

variable {outline part : Outline} {parts : List Outline}

/-- The parts of a well-nested outline stand inside of it. -/
theorem part_fits (h : (Outline.node span parts).Nested text) (hpart : part ∈ parts) :
    part.Fits text span := by
  cases h with
  | node _ _ hinside _ hnested => exact ⟨hnested part hpart, hinside part hpart⟩

end Outline.Nested

namespace Sexp.Sound

/-- A sound view has names for its fields and kinds. -/
theorem named {sexp : Sexp} (h : sexp.Sound nested) : sexp.Named := by
  induction h with
  | node hfield hkind _ _ ih => exact .node hfield hkind ih

/-- A leaf with a name and ordered ends is sound. -/
theorem leaf {kind : String} (hkind : IsName kind) (hspan : nested → span.start ≤ span.stop) :
    (Sexp.leaf kind span).Sound nested :=
  .node nofun hkind (fun h => ⟨hspan h, List.forall_mem_nil _⟩) (List.forall_mem_nil _)

/-- A leaf in a field is sound if both have names and the ends are ordered. -/
theorem fieldLeaf {field kind : String} (hfield : IsName field) (hkind : IsName kind)
    (hspan : nested → span.start ≤ span.stop) : (Sexp.fieldLeaf field kind span).Sound nested := by
  refine .node (fun name h => ?_) hkind (fun h => ⟨hspan h, List.forall_mem_nil _⟩)
    (List.forall_mem_nil _)
  cases h
  exact hfield

/-- A node under a field name that holds one node, which stands where it does. -/
theorem around {field kind : String} {inner : Sexp} (hfield : IsName field) (hkind : IsName kind)
    (hspan : nested → span.start ≤ span.stop) (hinner : inner.Sound nested)
    (heq : inner.span = span) : (Sexp.node (some field) kind span [inner]).Sound nested := by
  refine .node (fun name hname => ?_) hkind (fun hnested => ⟨hspan hnested, ?_⟩)
    (List.forall_mem_singleton.mpr hinner)
  · cases hname
    exact hfield
  · rw [List.forall_mem_singleton, heq]
    exact .refl span

/-- A node is sound if its children are, and stand inside of it. -/
theorem plain {kind : String} {children : List Sexp} (hkind : IsName kind)
    (hspan : nested → span.start ≤ span.stop)
    (hchildren : ∀ child ∈ children, child.Sound nested ∧ (nested → child.span.Within span)) :
    (Sexp.plain kind span children).Sound nested :=
  .node nofun hkind (fun h => ⟨hspan h, fun child hchild => (hchildren child hchild).2 h⟩)
    fun child hchild => (hchildren child hchild).1

end Sexp.Sound

namespace Views

/-- A leaf of a well-nested outline has a sound view. -/
theorem leaf {kind : String} (hkind : Sexp.IsName kind)
    (h : nested → (Outline.leaf span).Nested text) :
    Views nested span (.ok (.leaf kind span)) := by
  rintro _ ⟨⟩
  exact ⟨rfl, .leaf hkind fun hnested => (h hnested).start_le⟩

/-- A node around those that result. -/
theorem around {kind : String} {result : Except Fault (List Sexp)} (hkind : Sexp.IsName kind)
    (hspan : nested → span.start ≤ span.stop) (h : ViewsIn nested span result) :
    Views nested span (result.map (.plain kind span)) := by
  intro sexp hsexp
  obtain ⟨sexps, hsexps, rfl⟩ := Except.map_eq_ok hsexp
  exact ⟨rfl, .plain hkind hspan (h sexps hsexps)⟩

end Views

namespace ViewsIn

/-- No views are views inside of any span. -/
theorem nil : ViewsIn nested span (.ok []) := by
  rintro _ ⟨⟩
  exact List.forall_mem_nil _

/-- Views are inside of a span if the first and the others are. -/
theorem cons {inner : Span} {result : Except Fault Sexp} {results : Except Fault (List Sexp)}
    (hinner : nested → inner.Within span) (h : Views nested inner result)
    (h' : ViewsIn nested span results) : ViewsIn nested span do
      let first ← result
      return first :: (← results) := by
  intro sexps hsexps
  obtain ⟨first, hfirst, hsexps⟩ := Except.bind_eq_ok hsexps
  obtain ⟨rest, hrest, hsexps⟩ := Except.bind_eq_ok hsexps
  cases hsexps
  obtain ⟨hspan, hsound⟩ := h first hfirst
  refine List.forall_mem_cons.mpr ⟨⟨hsound, fun hnested => ?_⟩, h' rest hrest⟩
  rw [hspan]
  exact hinner hnested

/-- Views inside of a span are inside of all that are around it. -/
theorem mono {inner : Span} {result : Except Fault (List Sexp)}
    (hinner : nested → inner.Within span) (h : ViewsIn nested inner result) :
    ViewsIn nested span result := by
  intro sexps hsexps sexp hsexp
  obtain ⟨hsound, hwithin⟩ := h sexps hsexps sexp hsexp
  exact ⟨hsound, fun hnested => (hwithin hnested).trans (hinner hnested)⟩

/-- The views of several pieces, all inside of `span`. -/
theorem flatten {α : Type} {view : α → Except Fault (List Sexp)} {pieces : List α}
    (h : ∀ piece ∈ pieces, ViewsIn nested span (view piece)) :
    ∀ sexps, pieces.mapM view = .ok sexps →
      ∀ sexp ∈ sexps.flatten, sexp.Sound nested ∧ (nested → sexp.span.Within span) := by
  induction pieces with
  | nil =>
      rintro _ ⟨⟩
      exact List.forall_mem_nil _
  | cons piece pieces ih =>
      obtain ⟨hpiece, hpieces⟩ := List.forall_mem_cons.mp h
      intro sexps hsexps
      rw [List.mapM_cons] at hsexps
      obtain ⟨first, hfirst, hsexps⟩ := Except.bind_eq_ok hsexps
      obtain ⟨rest, hrest, hsexps⟩ := Except.bind_eq_ok hsexps
      cases hsexps
      rw [List.flatten_cons]
      exact List.forall_mem_append.mpr ⟨hpiece first hfirst, ih hpieces rest hrest⟩

end ViewsIn

/-! ### Leaves -/

/-- The two parts of a resource location stand on both sides of its colon. -/
theorem ResourceLocation.toSexp_sound (location : ResourceLocation)
    (h : nested → (Outline.leaf location.span).Nested text) :
    Views nested location.span location.toSexp := by
  intro sexp hsexp
  rw [ResourceLocation.toSexp] at hsexp
  obtain ⟨colon, hcolon, hsexp⟩ := Except.bind_eq_ok hsexp
  obtain ⟨space, hspace, hsexp⟩ := Except.bind_eq_ok hsexp
  obtain ⟨next, hnext, hsexp⟩ := Except.bind_eq_ok hsexp
  obtain ⟨path, hpath, hsexp⟩ := Except.bind_eq_ok hsexp
  cases hsexp
  obtain ⟨rfl, hcolonLe⟩ := Span.between_eq_ok hspace
  obtain ⟨rfl, hpathLe⟩ := Span.between_eq_ok hpath
  obtain rfl := offsetPast_eq_ok hnext
  refine ⟨rfl, .plain rfl (fun hnested => (h hnested).start_le) ?_⟩
  have hspaceIn : (Span.mk location.span.start colon).Within location.span :=
    ⟨le_rfl, (Nat.le_succ colon).trans hpathLe⟩
  have hpathIn : (Span.mk (colon + 1) location.span.stop).Within location.span :=
    ⟨hcolonLe.trans (Nat.le_succ colon), le_rfl⟩
  refine List.forall_mem_cons.mpr ⟨⟨?_, fun _ => hspaceIn⟩, ?_⟩
  · exact .fieldLeaf rfl rfl fun _ => hcolonLe
  · refine List.forall_mem_singleton.mpr ⟨?_, fun _ => hpathIn⟩
    exact .fieldLeaf rfl rfl fun _ => hpathLe

/-- The view of a macro argument is sound. -/
theorem Interpolated.toSexp_sound (argument : Interpolated)
    (h : nested → argument.outline.Nested text) :
    Views nested argument.span (.ok argument.toSexp) := by
  rintro _ ⟨⟩
  refine ⟨rfl, .plain rfl (fun hnested => (h hnested).start_le) fun sexp hsexp => ?_⟩
  obtain ⟨fragment, hfragment, hsome⟩ := List.mem_filterMap.mp hsexp
  have hfits : nested → (Outline.leaf fragment.span).Fits text argument.span := fun hnested =>
    (h hnested).part_fits (List.mem_map_of_mem hfragment)
  cases fragment with
  | quoted => cases hsome
  | literal run | interpolation piece =>
      cases hsome
      exact ⟨.leaf rfl fun hnested => (hfits hnested).1.start_le,
        fun hnested => (hfits hnested).2⟩

/-- The outline of a key stands where the key does. -/
theorem NbtKey.outline_span (key : NbtKey) : key.outline.span = key.span := by
  cases key <;> rfl

/-- The view of a key is sound, whatever kind its bare form is shown as. -/
theorem NbtKey.toSexp_sound (key : NbtKey) (bare : String) (hbare : Sexp.IsName bare)
    (h : nested → key.outline.Nested text) : Views nested key.span (.ok (key.toSexp bare)) := by
  cases key with
  | interpolated argument => exact argument.toSexp_sound h
  | plain literal =>
      refine .leaf ?_ h
      split
      · exact hbare
      · rfl

/-! ### NBT -/

/-- The outline of a value stands where the value does. -/
theorem NbtValue.outline_span (value : NbtValue) : value.outline.span = value.span := by
  rcases value with _ | _ | _ | ⟨_, _⟩ | ⟨_, _⟩ | _ | _ | _ <;> rfl

/-- The outline of a pair stands where the pair does. -/
theorem NbtPair.outline_span (pair : NbtPair) : pair.outline.span = pair.span := by
  obtain ⟨key, operator, value, span⟩ := pair
  rfl

/-- A pair around its key and its value. -/
theorem Views.pair {key : NbtKey} {value : NbtValue} {result : Except Fault Sexp}
    (h : nested → (Outline.node span [key.outline, value.outline]).Nested text)
    (hvalue : Views nested value.span result) :
    Views nested span (result.map fun inner => .plain "nbt_pair" span
      [.node (some "key") "nbt_key" key.span [key.toSexp "string"],
        .node (some "value") "nbt_value" value.span [inner]]) := by
  have hkeyFits : nested → key.outline.Fits text span := fun hnested =>
    (h hnested).part_fits (by simp)
  have hvalueFits : nested → value.outline.Fits text span := fun hnested =>
    (h hnested).part_fits (by simp)
  have hkeyIn : nested → key.span.Within span := fun hnested =>
    key.outline_span ▸ (hkeyFits hnested).2
  have hvalueIn : nested → value.span.Within span := fun hnested =>
    value.outline_span ▸ (hvalueFits hnested).2
  intro sexp hsexp
  obtain ⟨inner, hinner, rfl⟩ := Except.map_eq_ok hsexp
  obtain ⟨hkeySpan, hkeySound⟩ := key.toSexp_sound "string" rfl
    (fun hnested => (hkeyFits hnested).1) _ rfl
  obtain ⟨hinnerSpan, hinnerSound⟩ := hvalue inner hinner
  refine ⟨rfl, .plain rfl (fun hnested => (h hnested).start_le) ?_⟩
  refine List.forall_mem_cons.mpr ⟨⟨?_, hkeyIn⟩, List.forall_mem_singleton.mpr ⟨?_, hvalueIn⟩⟩
  · refine .around rfl rfl (fun hnested => ?_) hkeySound hkeySpan
    exact key.outline_span ▸ (hkeyFits hnested).1.start_le
  · refine .around rfl rfl (fun hnested => ?_) hinnerSound hinnerSpan
    exact value.outline_span ▸ (hvalueFits hnested).1.start_le

mutual

/-- The view of a value is sound. -/
theorem NbtValue.toSexp_sound : ∀ value : NbtValue, (nested → value.outline.Nested text) →
    Views nested value.span value.toSexp
  | .string _, h | .number _, h | .boolean _, h | .error _, h => by
      rw [NbtValue.toSexp]
      exact .leaf rfl h
  | .resource node, h => by
      rw [NbtValue.toSexp]
      exact node.toSexp_sound h
  | .list node, h => by
      rw [NbtValue.toSexp]
      exact NbtList.toSexp_sound node h
  | .compound node, h => by
      rw [NbtValue.toSexp]
      exact NbtCompound.toSexp_sound node h
  | .interpolated node, h => by
      rw [NbtValue.toSexp]
      exact node.toSexp_sound h

/-- The views of the items of a list are sound and inside of the list. -/
theorem NbtItems.toSexps_sound : ∀ {span : Span} (items : NbtItems),
    (nested → ∀ part ∈ items.outlines, part.Fits text span) → ViewsIn nested span items.toSexps
  | _, .pairs elements, h => by
      rw [NbtItems.toSexps]
      exact NbtPair.toSexps_sound elements h
  | _, .values elements, h => by
      rw [NbtItems.toSexps]
      exact NbtValue.toSexps_sound elements h

/-- The view of a list is sound. -/
theorem NbtList.toSexp_sound : ∀ list : NbtList, (nested → list.outline.Nested text) →
    Views nested list.span list.toSexp
  | ⟨items, span⟩, h => by
      rw [NbtList.toSexp]
      exact .around rfl (fun hnested => (h hnested).start_le)
        (NbtItems.toSexps_sound items fun hnested _ => (h hnested).part_fits)

/-- The view of a compound is sound. -/
theorem NbtCompound.toSexp_sound : ∀ compound : NbtCompound,
    (nested → compound.outline.Nested text) → Views nested compound.span compound.toSexp
  | ⟨pairs, span⟩, h => by
      rw [NbtCompound.toSexp]
      exact .around rfl (fun hnested => (h hnested).start_le)
        (NbtPair.toSexps_sound pairs fun hnested _ => (h hnested).part_fits)

/-- The view of a pair is sound. -/
theorem NbtPair.toSexp_sound : ∀ pair : NbtPair, (nested → pair.outline.Nested text) →
    Views nested pair.span pair.toSexp
  | ⟨key, operator, value, span⟩, h => by
      rw [NbtPair.toSexp]
      exact .pair h (NbtValue.toSexp_sound value fun hnested =>
        ((h hnested).part_fits (by simp)).1)

/-- The views of pairs are sound and inside of what is around them. -/
theorem NbtPair.toSexps_sound : ∀ {span : Span} (pairs : List NbtPair),
    (nested → ∀ part ∈ NbtPair.outlines pairs, part.Fits text span) →
    ViewsIn nested span (NbtPair.toSexps pairs)
  | _, [], _ => .nil
  | _, pair :: pairs, h => by
      rw [NbtPair.toSexps]
      refine .cons (fun hnested => ?_)
        (NbtPair.toSexp_sound pair fun hnested => (h hnested _ List.mem_cons_self).1)
        (NbtPair.toSexps_sound pairs fun hnested part hpart =>
          h hnested part (List.mem_cons_of_mem _ hpart))
      exact pair.outline_span ▸ (h hnested _ List.mem_cons_self).2

/-- The views of values are sound and inside of what is around them. -/
theorem NbtValue.toSexps_sound : ∀ {span : Span} (values : List NbtValue),
    (nested → ∀ part ∈ NbtValue.outlines values, part.Fits text span) →
    ViewsIn nested span (NbtValue.toSexps values)
  | _, [], _ => .nil
  | _, value :: values, h => by
      rw [NbtValue.toSexps]
      refine .cons (fun hnested => ?_)
        (NbtValue.toSexp_sound value fun hnested => (h hnested _ List.mem_cons_self).1)
        (NbtValue.toSexps_sound values fun hnested part hpart =>
          h hnested part (List.mem_cons_of_mem _ hpart))
      exact value.outline_span ▸ (h hnested _ List.mem_cons_self).2

end

/-! ### Paths and selectors -/

/-- What stands in the brackets of a path stands in the brackets. -/
theorem PathSuffix.toSexps_sound (suffix : PathSuffix)
    (h : nested → suffix.outline.Fits text span) : ViewsIn nested span suffix.toSexps := by
  rcases suffix with ⟨items, inner⟩ | ⟨pairs, inner⟩
  · have hinner : nested → inner.Within span := fun hnested => (h hnested).2
    refine ViewsIn.mono hinner ?_
    exact NbtItems.toSexps_sound items fun hnested _ => (h hnested).1.part_fits
  · have hinner : nested → inner.Within span := fun hnested => (h hnested).2
    refine ViewsIn.mono hinner ?_
    exact NbtPair.toSexps_sound pairs fun hnested _ => (h hnested).1.part_fits

/-- The views of a segment of a path are sound and inside of it. -/
theorem PathSegment.toSexps_sound (segment : PathSegment)
    (h : nested → segment.outline.Nested text) :
    ViewsIn nested segment.span segment.toSexps := by
  have hname : nested → segment.name.outline.Fits text segment.span := fun hnested =>
    (h hnested).part_fits List.mem_cons_self
  intro sexps hsexps
  rw [PathSegment.toSexps] at hsexps
  obtain ⟨suffixes, hsuffixes, hsexps⟩ := Except.bind_eq_ok hsexps
  cases hsexps
  obtain ⟨hspan, hsound⟩ := segment.name.toSexp_sound "keyword" rfl
    (fun hnested => (hname hnested).1) _ rfl
  refine List.forall_mem_cons.mpr ⟨⟨hsound, fun hnested => ?_⟩, ?_⟩
  · rw [hspan]
    exact segment.name.outline_span ▸ (hname hnested).2
  · refine ViewsIn.flatten (fun suffix hsuffix => ?_) suffixes hsuffixes
    have hfits : nested → suffix.outline.Fits text segment.span := fun hnested =>
      (h hnested).part_fits (List.mem_cons_of_mem _ (List.mem_map_of_mem hsuffix))
    exact suffix.toSexps_sound hfits

/-- The view of a path is sound. -/
theorem NbtPath.toSexp_sound (path : NbtPath) (h : nested → path.outline.Nested text) :
    Views nested path.span path.toSexp := by
  intro sexp hsexp
  rw [NbtPath.toSexp] at hsexp
  obtain ⟨segments, hsegments, hsexp⟩ := Except.bind_eq_ok hsexp
  cases hsexp
  refine ⟨rfl, .plain rfl (fun hnested => (h hnested).start_le) ?_⟩
  refine ViewsIn.flatten (fun segment hsegment => ?_) segments hsegments
  have hfits : nested → segment.outline.Fits text path.span := fun hnested =>
    (h hnested).part_fits (List.mem_map_of_mem hsegment)
  exact ViewsIn.mono (fun hnested => (hfits hnested).2)
    (segment.toSexps_sound fun hnested => (hfits hnested).1)

/-- The selectors among the nodes have room for their target. -/
def RoomForTargets (nodes : List Node) : Prop :=
  ∀ selector, Node.selector selector ∈ nodes →
    selector.span.start + 2 ≤ selector.span.stop

/-- Fewer nodes leave no less room for targets. -/
theorem RoomForTargets.of_subset {nodes nodes' : List Node} (h : RoomForTargets nodes)
    (hsubset : nodes' ⊆ nodes) : RoomForTargets nodes' :=
  fun selector hselector => h selector (hsubset hselector)

/-- The outline of a list stands where the list does. -/
theorem NbtList.outline_span (list : NbtList) : list.outline.span = list.span := by
  obtain ⟨items, span⟩ := list
  rfl

/-- The view of a selector is sound, if there is room for its target. -/
theorem Selector.toSexp_sound (selector : Selector)
    (h : nested → selector.outline.Nested text ∧ RoomForTargets selector.nodes) :
    Views nested selector.span selector.toSexp := by
  intro sexp hsexp
  rw [Selector.toSexp] at hsexp
  obtain ⟨stop, hstop, hsexp⟩ := Except.bind_eq_ok hsexp
  obtain rfl := offsetPast_eq_ok hstop
  have hspan : nested → selector.span.start ≤ selector.span.stop := fun hnested =>
    (h hnested).1.start_le
  have htarget : ∀ {target : Sexp},
      target = .leaf "selector_target" ⟨selector.span.start, selector.span.start + 2⟩ →
      target.Sound nested ∧ (nested → target.span.Within selector.span) := by
    rintro _ rfl
    refine ⟨.leaf rfl fun _ => Nat.le_add_right _ 2, fun hnested => ⟨le_rfl, ?_⟩⟩
    exact (h hnested).2 selector List.mem_cons_self
  rcases hfilter : selector.filter with _ | filter
  · simp only [hfilter] at hsexp
    cases hsexp
    exact ⟨rfl, .plain rfl hspan (List.forall_mem_singleton.mpr (htarget rfl))⟩
  · simp only [hfilter] at hsexp
    obtain ⟨inner, hinner, hsexp⟩ := Except.bind_eq_ok hsexp
    cases hsexp
    have hfits : nested → filter.outline.Fits text selector.span := by
      intro hnested
      refine (h hnested).1.part_fits ?_
      simp [hfilter]
    obtain ⟨hinnerSpan, hsound⟩ :=
      filter.toSexp_sound (fun hnested => (hfits hnested).1) inner hinner
    refine ⟨rfl, .plain rfl hspan (List.forall_mem_cons.mpr ⟨htarget rfl,
      List.forall_mem_singleton.mpr ⟨hsound, fun hnested => ?_⟩⟩)⟩
    rw [hinnerSpan]
    exact filter.outline_span ▸ (hfits hnested).2

/-! ### Commands -/

/-- The outline of an argument stands where the argument does. -/
theorem Argument.outline_span (argument : Argument) :
    argument.outline.span = argument.span := by
  rcases argument with _ | _ | _ | _ | _ | ⟨_, _⟩ | ⟨_, _⟩ | _ | _ | _ | ⟨_, _⟩ | _ | _ | _ <;> rfl

/-- A command around its name and its arguments. -/
theorem Views.command {name : Span} {field : Option String} {kind : String}
    {parts : List Outline} {result : Except Fault (List Sexp)}
    (hfield : ∀ word, field = some word → Sexp.IsName word) (hkind : Sexp.IsName kind)
    (h : nested → (Outline.node span (.leaf name :: parts)).Nested text)
    (harguments : ViewsIn nested span result) :
    Views nested span (result.map fun inner =>
      .node field kind span (.leaf "command_name" name :: inner)) := by
  have hname : nested → (Outline.leaf name).Fits text span := fun hnested =>
    (h hnested).part_fits List.mem_cons_self
  intro sexp hsexp
  obtain ⟨sexps, hsexps, rfl⟩ := Except.map_eq_ok hsexp
  have hsound := harguments sexps hsexps
  refine ⟨rfl, .node hfield hkind (fun hnested => ⟨(h hnested).start_le, ?_⟩) ?_⟩
  · exact List.forall_mem_cons.mpr
      ⟨(hname hnested).2, fun sexp hsexp => (hsound sexp hsexp).2 hnested⟩
  · exact List.forall_mem_cons.mpr ⟨.leaf rfl fun hnested => (hname hnested).1.start_le,
      fun sexp hsexp => (hsound sexp hsexp).1⟩

-- The places of the parts of a comment or a resource location are checked when they are made. The
-- one of the target of a selector is not, so room for it is asked of all nodes of a command.
mutual

/-- The view of an argument is sound. -/
theorem Argument.toSexp_sound : ∀ argument : Argument,
    (nested → argument.outline.Nested text ∧ RoomForTargets argument.nodes) →
    Views nested argument.span argument.toSexp
  | .coordinates node, h => by
      rw [Argument.toSexp]
      intro sexp hsexp
      cases hsexp
      exact ⟨rfl, .leaf rfl fun hnested => (h hnested).1.start_le⟩
  | .string _, h | .number _, h | .boolean _, h | .fakePlayer _, h | .keyword _, h
  | .error _, h => by
      rw [Argument.toSexp]
      exact .leaf rfl fun hnested => (h hnested).1
  | .resource node, h | .list node, h | .compound node, h | .path node, h
  | .interpolated node, h => by
      rw [Argument.toSexp]
      exact node.toSexp_sound fun hnested => (h hnested).1
  | .selector node, h => by
      rw [Argument.toSexp]
      exact node.toSexp_sound fun hnested =>
        ⟨(h hnested).1, (h hnested).2.of_subset (List.subset_cons_self _ _)⟩
  | .run node, h => by
      rw [Argument.toSexp]
      exact RunClause.toSexp_sound node fun hnested =>
        ⟨(h hnested).1, (h hnested).2.of_subset (List.subset_cons_self _ _)⟩

/-- The view of a run clause is sound. -/
theorem RunClause.toSexp_sound : ∀ clause : RunClause,
    (nested → clause.outline.Nested text ∧ RoomForTargets clause.nodes) →
    Views nested clause.span clause.toSexp
  | ⟨subcommand, span⟩, h => by
      have hfits : nested → subcommand.outline.Fits text span := fun hnested =>
        (h hnested).1.part_fits (List.mem_singleton_self _)
      have hinner := Subcommand.toSexp_sound (some "subcommand") subcommand
        (fun name hname => by cases hname; rfl) fun hnested =>
          ⟨(hfits hnested).1, (h hnested).2.of_subset (List.subset_cons_self _ _)⟩
      intro sexp hsexp
      rw [RunClause.toSexp] at hsexp
      obtain ⟨inner, hresult, rfl⟩ := Except.map_eq_ok hsexp
      obtain ⟨hinnerSpan, hsound⟩ := hinner inner hresult
      refine ⟨rfl, .plain rfl (fun hnested => (h hnested).1.start_le)
        (List.forall_mem_singleton.mpr ⟨hsound, fun hnested => ?_⟩)⟩
      rw [hinnerSpan]
      exact (hfits hnested).2

/-- The view of a subcommand is sound, whatever name its field has. -/
theorem Subcommand.toSexp_sound (field : Option String) : ∀ subcommand : Subcommand,
    (∀ name, field = some name → Sexp.IsName name) →
    (nested → subcommand.outline.Nested text ∧ RoomForTargets subcommand.nodes) →
    Views nested subcommand.outline.span (subcommand.toSexp field)
  | .command node, hfield, h => by
      rw [Subcommand.toSexp]
      exact Command.toSexp_sound field node hfield h
  | .macroCommand node, hfield, h => by
      rw [Subcommand.toSexp]
      exact MacroCommand.toSexp_sound field node hfield h

/-- The view of a command is sound, whatever name its field has. -/
theorem Command.toSexp_sound (field : Option String) : ∀ command : Command,
    (∀ name, field = some name → Sexp.IsName name) →
    (nested → command.outline.Nested text ∧ RoomForTargets command.nodes) →
    Views nested command.outline.span (command.toSexp field)
  | ⟨name, arguments, span⟩, hfield, h => by
      rw [Command.toSexp]
      refine .command hfield rfl (fun hnested => (h hnested).1) ?_
      refine Argument.toSexps_sound arguments fun hnested => ⟨fun part hpart => ?_, ?_⟩
      · exact (h hnested).1.part_fits (List.mem_cons_of_mem _ hpart)
      · refine (h hnested).2.of_subset fun node hnode => ?_
        exact List.mem_cons_of_mem _ (List.mem_cons_of_mem _ hnode)

/-- The view of a macro command is sound, whatever name its field has. -/
theorem MacroCommand.toSexp_sound (field : Option String) : ∀ command : MacroCommand,
    (∀ name, field = some name → Sexp.IsName name) →
    (nested → command.outline.Nested text ∧ RoomForTargets command.nodes) →
    Views nested command.outline.span (command.toSexp field)
  | ⟨name, arguments, span⟩, hfield, h => by
      rw [MacroCommand.toSexp]
      refine .command hfield rfl (fun hnested => (h hnested).1) ?_
      refine Argument.toSexps_sound arguments fun hnested => ⟨fun part hpart => ?_, ?_⟩
      · exact (h hnested).1.part_fits (List.mem_cons_of_mem _ hpart)
      · refine (h hnested).2.of_subset fun node hnode => ?_
        exact List.mem_cons_of_mem _ (List.mem_cons_of_mem _ hnode)

/-- The views of arguments are sound and inside of what is around them. -/
theorem Argument.toSexps_sound : ∀ {span : Span} (arguments : List Argument),
    (nested → (∀ part ∈ Argument.outlines arguments, part.Fits text span) ∧
      RoomForTargets (Argument.allNodes arguments)) →
    ViewsIn nested span (Argument.toSexps arguments)
  | _, [], _ => .nil
  | _, argument :: arguments, h => by
      rw [Argument.toSexps]
      refine .cons (fun hnested => ?_)
        (Argument.toSexp_sound argument fun hnested =>
          ⟨((h hnested).1 _ List.mem_cons_self).1,
            (h hnested).2.of_subset (List.subset_append_left _ _)⟩)
        (Argument.toSexps_sound arguments fun hnested =>
          ⟨fun part hpart => (h hnested).1 part (List.mem_cons_of_mem _ hpart),
            (h hnested).2.of_subset (List.subset_append_right _ _)⟩)
      exact argument.outline_span ▸ ((h hnested).1 _ List.mem_cons_self).2

end

/-! ### Comments -/

variable {source : Option String}

/-- A span that is trimmed at its start lies in what it was, with its ends in order. -/
theorem Span.trimStart_eq_ok {result : Span} (hspan : span.start ≤ span.stop)
    (h : span.trimStart source = .ok result) :
    result.Within span ∧ result.start ≤ result.stop := by
  rw [Span.trimStart] at h
  split at h
  · obtain ⟨rfl, hle⟩ := Span.between_eq_ok h
    exact ⟨⟨Nat.le_add_right _ _, le_rfl⟩, hle⟩
  · cases h
    exact ⟨.refl span, hspan⟩

/-- The view of a part of a comment is sound and inside of the comment. -/
theorem Comment.part_sound {field kind : String} {content : Option String} {start stop : Nat}
    {sexps : List Sexp} (hsexps : Comment.part source field kind content start stop = .ok sexps)
    (hfield : Sexp.IsName field) (hkind : Sexp.IsName kind)
    (hwithin : (Span.mk start stop).Within span) :
    ∀ sexp ∈ sexps, sexp.Sound nested ∧ (nested → sexp.span.Within span) := by
  rw [Comment.part] at hsexps
  split at hsexps
  · obtain ⟨place, hplace, hsexps⟩ := Except.bind_eq_ok hsexps
    obtain ⟨rfl, hle⟩ := Span.between_eq_ok hplace
    obtain ⟨trimmed, htrimmed, hsexps⟩ := Except.bind_eq_ok hsexps
    cases hsexps
    obtain ⟨hinner, hordered⟩ := Span.trimStart_eq_ok hle htrimmed
    exact List.forall_mem_singleton.mpr
      ⟨.fieldLeaf hfield hkind fun _ => hordered, fun _ => hinner.trans hwithin⟩
  · cases hsexps
    exact List.forall_mem_nil _

/-- The parts of a comment stand behind its tag, and those of a directive on both sides of its
colon. -/
theorem Comment.toSexp_sound (comment : Comment) :
    Views nested comment.span (comment.toSexp source) := by
  intro sexp hsexp
  rw [Comment.toSexp] at hsexp
  obtain ⟨stop, hstop, hsexp⟩ := Except.bind_eq_ok hsexp
  obtain ⟨body, hbody, hsexp⟩ := Except.bind_eq_ok hsexp
  obtain rfl := offsetPast_eq_ok hstop
  obtain ⟨rfl, hle⟩ := Span.between_eq_ok hbody
  have hstart := Nat.le_add_right comment.span.start comment.tag.utf8ByteSize
  have hspan : nested → comment.span.start ≤ comment.span.stop := fun _ => hstart.trans hle
  have htag : ∀ {kind : String}, Sexp.IsName kind →
      (Sexp.fieldLeaf "tag" kind
        ⟨comment.span.start, comment.span.start + comment.tag.utf8ByteSize⟩).Sound nested ∧
      (nested → (Sexp.fieldLeaf "tag" kind
        ⟨comment.span.start, comment.span.start + comment.tag.utf8ByteSize⟩).span.Within
          comment.span) :=
    fun hkind => ⟨.fieldLeaf rfl hkind fun _ => hstart, fun _ => ⟨le_rfl, hle⟩⟩
  have hbodyIn : (Span.mk (comment.span.start + comment.tag.utf8ByteSize)
      comment.span.stop).Within comment.span := ⟨hstart, le_rfl⟩
  dsimp only at hsexp
  split at hsexp
  · obtain ⟨content, hcontent, hsexp⟩ := Except.bind_eq_ok hsexp
    cases hsexp
    exact ⟨rfl, .plain rfl hspan (List.forall_mem_cons.mpr
      ⟨htag rfl, Comment.part_sound hcontent rfl rfl hbodyIn⟩)⟩
  · obtain ⟨content, hcontent, hsexp⟩ := Except.bind_eq_ok hsexp
    cases hsexp
    exact ⟨rfl, .plain rfl hspan (List.forall_mem_cons.mpr
      ⟨htag rfl, Comment.part_sound hcontent rfl rfl hbodyIn⟩)⟩
  · obtain ⟨key, hkey, hsexp⟩ := Except.bind_eq_ok hsexp
    obtain ⟨value, hvalue, hsexp⟩ := Except.bind_eq_ok hsexp
    cases hsexp
    refine ⟨rfl, .plain rfl hspan (List.forall_mem_cons.mpr
      ⟨htag rfl, List.forall_mem_append.mpr ⟨?_, ?_⟩⟩)⟩
    · refine Comment.part_sound hkey rfl rfl ⟨hstart, ?_⟩
      rcases hcolon : Span.colon? source _ with _ | colon
      · exact le_rfl
      · exact (Nat.le_succ _).trans (Span.colon?_bounds hcolon).2
    · refine Comment.part_sound hvalue rfl rfl ⟨?_, le_rfl⟩
      rcases hcolon : Span.colon? source _ with _ | colon
      · exact hstart
      · exact (hstart.trans (Span.colon?_bounds hcolon).1).trans (Nat.le_succ _)

/-! ### Documents -/

/-- The view of a statement is sound. -/
theorem Statement.toSexp_sound (statement : Statement) (text : String)
    (h : nested → statement.outline.Nested text ∧ RoomForTargets statement.nodes) :
    Views nested statement.outline.span (statement.toSexp source) := by
  have hnodes : ∀ {nodes : List Node}, nodes ⊆ statement.nodes → nested → RoomForTargets nodes :=
    fun hsubset hnested => (h hnested).2.of_subset hsubset
  cases statement with
  | command node =>
      exact node.toSexp_sound none nofun fun hnested =>
        ⟨(h hnested).1, hnodes (List.subset_cons_self _ _) hnested⟩
  | macroCommand node =>
      exact node.toSexp_sound none nofun fun hnested =>
        ⟨(h hnested).1, hnodes (List.subset_cons_self _ _) hnested⟩
  | comment node => exact node.toSexp_sound
  | error node => exact .leaf rfl fun hnested => (h hnested).1

/-- Views of several pieces are inside of a span if each piece is. -/
theorem ViewsIn.mapM {α : Type} {view : α → Except Fault Sexp} {pieces : List α}
    (place : α → Span) (h : ∀ piece ∈ pieces, Views nested (place piece) (view piece) ∧
      (nested → (place piece).Within span)) : ViewsIn nested span (pieces.mapM view) := by
  induction pieces with
  | nil => exact .nil
  | cons piece pieces ih =>
      obtain ⟨⟨hview, hplace⟩, hpieces⟩ := List.forall_mem_cons.mp h
      rw [List.mapM_cons]
      exact .cons hplace hview (ih hpieces)

/-- The view of a document is sound, and its nodes are nested if those of the document are nested
in the text. -/
theorem Document.toSexp_sound (document : Document) {sexp : Sexp}
    (h : nested → ∃ text, source = some text ∧ ∀ statement ∈ document.statements,
      statement.outline.Fits text ⟨0, text.utf8ByteSize⟩ ∧ RoomForTargets statement.nodes)
    (hsexp : document.toSexp source = .ok sexp) : sexp.Sound nested := by
  rw [Document.toSexp] at hsexp
  obtain ⟨statements, hstatements, hsexp⟩ := Except.bind_eq_ok hsexp
  cases hsexp
  refine .plain rfl (fun _ => Nat.zero_le _) (ViewsIn.mapM (·.outline.span) ?_
    statements hstatements)
  intro statement hmem
  refine ⟨statement.toSexp_sound (source.getD "") fun hnested => ?_, fun hnested => ?_⟩
  · obtain ⟨text, rfl, hall⟩ := h hnested
    exact ⟨(hall statement hmem).1.1, (hall statement hmem).2⟩
  · obtain ⟨text, rfl, hall⟩ := h hnested
    exact (hall statement hmem).1.2

/-- The fields and kinds in the view of any document are names. -/
theorem Document.toSexp_named (document : Document) {sexp : Sexp}
    (h : document.toSexp source = .ok sexp) : sexp.Named := by
  have hsound : sexp.Sound False := document.toSexp_sound False.elim h
  exact hsound.named

/-! ### Nodes without their places -/

namespace Comment

/-- A part of a comment, wherever it is. -/
def partShape (field kind : String) (content : Option String) : List Sexp :=
  if content.isSome then [.fieldLeaf field kind ⟨0, 0⟩] else []

/-- The nodes and fields of a comment, wherever they are. -/
def shape (comment : Comment) : Sexp :=
  .plain "comment" ⟨0, 0⟩ <|
    match comment.kind with
    | .normal =>
      .fieldLeaf "tag" "comment_tag" ⟨0, 0⟩ ::
        partShape "content" "comment_content" comment.content
    | .important =>
      .fieldLeaf "tag" "tag_important" ⟨0, 0⟩ ::
        partShape "content" "content_important" comment.content
    | .directive =>
      .fieldLeaf "tag" "tag_directive" ⟨0, 0⟩ ::
        (partShape "key" "key_directive" comment.directiveKey ++
          partShape "content" "content_directive" comment.directiveValue)

/-- Which parts of a comment are shown does not depend on where they are. -/
theorem part_unplaced {field kind : String} {content : Option String} {start stop : Nat}
    {sexps : List Sexp} (h : Comment.part source field kind content start stop = .ok sexps) :
    Sexp.allUnplaced sexps = partShape field kind content := by
  rw [part] at h
  split at h
  · rename_i hsome
    obtain ⟨place, -, h⟩ := Except.bind_eq_ok h
    obtain ⟨trimmed, -, h⟩ := Except.bind_eq_ok h
    cases h
    rw [partShape, if_pos hsome]
    rfl
  · rename_i hnone
    cases h
    rw [partShape, if_neg hnone]
    rfl

/-- What is shown of a comment does not depend on where it is. -/
theorem toSexp_unplaced {comment : Comment} {sexp : Sexp}
    (h : comment.toSexp source = .ok sexp) : sexp.unplaced = comment.shape := by
  rw [toSexp] at h
  obtain ⟨stop, -, h⟩ := Except.bind_eq_ok h
  obtain ⟨body, -, h⟩ := Except.bind_eq_ok h
  dsimp only at h
  rw [shape]
  cases hkind : comment.kind with
  | normal =>
    rw [hkind] at h
    obtain ⟨content, hcontent, h⟩ := Except.bind_eq_ok h
    cases h
    rw [← part_unplaced hcontent]
    rfl
  | important =>
    rw [hkind] at h
    obtain ⟨content, hcontent, h⟩ := Except.bind_eq_ok h
    cases h
    rw [← part_unplaced hcontent]
    rfl
  | directive =>
    rw [hkind] at h
    obtain ⟨key, hkey, h⟩ := Except.bind_eq_ok h
    obtain ⟨value, hvalue, h⟩ := Except.bind_eq_ok h
    cases h
    rw [← part_unplaced hkey, ← part_unplaced hvalue, ← Sexp.allUnplaced_append]
    rfl

end Comment

/-- Statements have the same nodes and fields whatever the text. -/
theorem Statement.toSexp_unplaced {source source' : Option String} {statement : Statement}
    {sexp sexp' : Sexp} (h : statement.toSexp source = .ok sexp)
    (h' : statement.toSexp source' = .ok sexp') : sexp.unplaced = sexp'.unplaced := by
  cases statement with
  | comment node => exact (Comment.toSexp_unplaced h).trans (Comment.toSexp_unplaced h').symm
  | command node | macroCommand node | error node =>
      rw [Statement.toSexp] at h h'
      rw [Except.ok.inj (h.symm.trans h')]

/-- A document has the same nodes and fields whatever the text. -/
theorem Document.toSexp_unplaced {source source' : Option String} {document : Document}
    {sexp sexp' : Sexp} (h : document.toSexp source = .ok sexp)
    (h' : document.toSexp source' = .ok sexp') : sexp.unplaced = sexp'.unplaced := by
  have hstatements : ∀ (statements : List Statement) {sexps sexps' : List Sexp},
      statements.mapM (Statement.toSexp source) = .ok sexps →
      statements.mapM (Statement.toSexp source') = .ok sexps' →
      Sexp.allUnplaced sexps = Sexp.allUnplaced sexps' := by
    intro statements
    induction statements with
    | nil =>
        rintro _ _ ⟨⟩ ⟨⟩
        rfl
    | cons statement statements ih =>
        intro sexps sexps' hsexps hsexps'
        rw [List.mapM_cons] at hsexps hsexps'
        obtain ⟨first, hfirst, hsexps⟩ := Except.bind_eq_ok hsexps
        obtain ⟨rest, hrest, hsexps⟩ := Except.bind_eq_ok hsexps
        obtain ⟨first', hfirst', hsexps'⟩ := Except.bind_eq_ok hsexps'
        obtain ⟨rest', hrest', hsexps'⟩ := Except.bind_eq_ok hsexps'
        cases hsexps
        cases hsexps'
        rw [Sexp.allUnplaced, Sexp.allUnplaced, Statement.toSexp_unplaced hfirst hfirst',
          ih hrest hrest']
  rw [Document.toSexp] at h h'
  obtain ⟨sexps, hsexps, h⟩ := Except.bind_eq_ok h
  obtain ⟨sexps', hsexps', h'⟩ := Except.bind_eq_ok h'
  cases h
  cases h'
  rw [Sexp.plain, Sexp.plain, Sexp.unplaced, Sexp.unplaced,
    hstatements document.statements hsexps hsexps']

end Mcfunction
