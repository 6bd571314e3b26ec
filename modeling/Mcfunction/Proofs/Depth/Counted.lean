import Mcfunction.Proofs.Depth.Command

/-!
# Counting the Levels

The levels of a parse can be counted upwards: each container and each run clause first compares
the number of levels around it with the limit, and only then reads what is in it, one level deeper.
The parsers here do so. They are defined by recursion on a `stack` of which each level takes one
place, and a parse that needs more places breaks off.

No parse needs more places than the limit, since every way from a parser back to itself passes
through the comparison; and what such a parse does is what the parse with levels left does.

## Main results

* `documentWithin_eq`: a stack as large as the limit is enough for every text.
* `Document.nest_le`: no document nests deeper than the limit.
-/

namespace Mcfunction

namespace Parser

variable {α : Type} {limit stack depth room : Nat} {mode : Mode}

/-! ### Counting parsers -/

/-- Reads something one level deeper, if the limit leaves a level for it. -/
def nested (depth : Nat) (start : Cursor) (inner : Parser α) : Parser α := do
  if (← settings).limit ≤ depth then tooDeep start else inner

/-- Reads a container one level deeper. -/
def nestedHere (depth : Nat) (inner : Parser α) : Parser α := do
  nested depth (← here) inner

/-- Containers with `depth` levels around them. -/
def containersWithin : (stack depth : Nat) → Containers
  | 0, depth => ⟨nestedHere depth (breakOff .stalled), nestedHere depth (breakOff .stalled)⟩
  | stack + 1, depth =>
    let inside := containersWithin stack (depth + 1)
    let value := valueOf inside.list inside.compound
    ⟨nestedHere depth (listOf value), nestedHere depth (compoundOf value)⟩

/-- The arguments of a command with `depth` levels around it. -/
def argumentsWithin : (stack depth : Nat) → Bool → Parser (List Argument)
  | 0, depth, inMacro =>
    argumentsOf (containersWithin 0 depth) (fun start => nested depth start (breakOff .stalled))
      inMacro
  | stack + 1, depth, inMacro =>
    argumentsOf (containersWithin (stack + 1) depth)
      (fun start =>
        nested depth start (runClause (argumentsWithin stack (depth + 1)) inMacro start))
      inMacro

/-- A document. -/
def documentWithin (stack : Nat) : Parser Document := do
  return ⟨← statements (argumentsWithin stack 0) ((← here).rest.length + 1)⟩

/-! ### Agreement -/

theorem compared_self (s : Settings) : Settings.Compared False s s :=
  ⟨rfl, False.elim⟩

theorem Limits.of_run {cut : Prop} {wide narrow : Settings} {deep : α → Prop}
    {p p' q : Parser α} (h : Limits cut wide narrow deep p q) (hrun : p' wide = p wide) :
    Limits cut wide narrow deep p' q := by
  intro c
  rw [hrun]
  exact h c

theorem nested_of_lt {start : Cursor} {inner : Parser α} (h : depth < limit) :
    nested depth start inner ⟨limit, mode⟩ = inner ⟨limit, mode⟩ := by
  funext c
  rw [nested, bind_done settings_run, if_neg (Nat.not_le.mpr h)]

theorem nestedHere_of_lt {inner : Parser α} (h : depth < limit) :
    nestedHere depth inner ⟨limit, mode⟩ = inner ⟨limit, mode⟩ := by
  funext c
  rw [nestedHere, bind_done here_run, nested_of_lt h]

theorem nested_limits {start : Cursor} {inner : Parser α} {deep : α → Prop} :
    Limits False ⟨limit, mode⟩ ⟨limit, mode⟩ deep (nested limit start inner) (tooDeep start) := by
  intro c
  rw [nested, bind_done settings_run, if_pos le_rfl, tooDeep_run]
  exact .same Outcome.gives_failed

theorem nestedHere_limits {inner : Parser α} {deep : α → Prop} :
    Limits False ⟨limit, mode⟩ ⟨limit, mode⟩ deep (nestedHere limit inner) containerTooDeep :=
  .plain_bind .here fun _ => nested_limits

/-- As many levels are left as the limit leaves above the ones around. -/
theorem containersWithin_limits (hroom : depth + room = limit) (hstack : room ≤ stack) :
    (containersWithin stack depth).Limits False ⟨limit, mode⟩ ⟨limit, mode⟩ room
      (containers room) := by
  induction room generalizing stack depth with
  | zero =>
      obtain rfl : depth = limit := hroom
      cases stack with
      | zero => exact ⟨nestedHere_limits, nestedHere_limits⟩
      | succ stack => exact ⟨nestedHere_limits, nestedHere_limits⟩
  | succ room ih =>
      obtain ⟨stack, rfl⟩ : ∃ k, stack = k + 1 := ⟨stack - 1, by omega⟩
      have hlt : depth < limit := by omega
      have hinside : (containersWithin stack (depth + 1)).Limits False ⟨limit, mode⟩ ⟨limit, mode⟩
          room (containers room) := ih (by omega) (by omega)
      have hvalue : Limits False ⟨limit, mode⟩ ⟨limit, mode⟩ (fun value => room < value.nest)
          (valueOf (containersWithin stack (depth + 1)).list
            (containersWithin stack (depth + 1)).compound) (value room) := by
        rw [value_eq]
        exact valueOf_limits (compared_self _) hinside.list hinside.compound
      constructor
      · exact (listOf_limits hvalue).of_run (nestedHere_of_lt hlt)
      · exact (compoundOf_limits hvalue).of_run (nestedHere_of_lt hlt)

theorem argumentsWithin_limits (hroom : depth + room = limit) (hstack : room ≤ stack)
    (inMacro : Bool) :
    Limits False ⟨limit, mode⟩ ⟨limit, mode⟩ (fun arguments => room < Argument.allNest arguments)
      (argumentsWithin stack depth inMacro) (arguments room inMacro) := by
  induction room generalizing stack depth inMacro with
  | zero =>
      have hcontainers : (containersWithin stack depth).Limits False ⟨limit, mode⟩ ⟨limit, mode⟩ 0
          (containers 0) := containersWithin_limits hroom hstack
      obtain rfl : depth = limit := hroom
      rw [arguments_zero]
      cases stack with
      | zero =>
          exact argumentsOf_limits (compared_self _) hcontainers (fun _ => nested_limits) inMacro
      | succ stack =>
          exact argumentsOf_limits (compared_self _) hcontainers (fun _ => nested_limits) inMacro
  | succ room ih =>
      obtain ⟨stack, rfl⟩ : ∃ k, stack = k + 1 := ⟨stack - 1, by omega⟩
      have hlt : depth < limit := by omega
      rw [arguments_succ]
      refine argumentsOf_limits (compared_self _) (containersWithin_limits hroom hstack)
        (fun start => ?_) inMacro
      exact (runClause_limits (ih (by omega) (by omega)) start).of_run (nested_of_lt hlt)

/-- A counting parse that has a place for each level of the limit does the same as the parse with
levels left, and what it gives does not nest deeper than the limit. -/
theorem documentWithin_limited (hstack : limit ≤ stack) (c : Cursor) :
    (documentWithin stack ⟨limit, mode⟩ c).Limited False limit
      (fun document => limit < document.nest) (document ⟨limit, mode⟩ c) := by
  have harguments := fun inMacro =>
    @argumentsWithin_limits limit stack 0 limit mode (Nat.zero_add limit) hstack inMacro
  rw [documentWithin, document_run, bind_done here_run]
  refine Limits.bind (statements_limits harguments (compared_self _) _)
    (fun statements hdeep => ?_) (fun statements hdeep => ?_) c
  · exact .pure hdeep
  · exact .pure hdeep

/-- A stack as large as the limit is enough for every text. -/
theorem documentWithin_eq (hstack : limit ≤ stack) (c : Cursor) :
    documentWithin stack ⟨limit, mode⟩ c = document ⟨limit, mode⟩ c := by
  have h := @documentWithin_limited limit stack mode hstack c
  generalize documentWithin stack ⟨limit, mode⟩ c = outcome at h ⊢
  generalize document ⟨limit, mode⟩ c = outcome' at h ⊢
  cases h with
  | same => rfl
  | tooDeep hcut => exact hcut.elim

end Parser

/-- No document nests deeper than the limit. -/
theorem Document.nest_le {mode : Mode} {options : ParseOptions} {text : String}
    {document : Document} {log : List Event} {next : Cursor}
    (h : run mode options text = .done document log next) : document.nest ≤ options.maxDepth := by
  have hlimited := @Parser.documentWithin_limited _ _ mode (le_refl options.maxDepth) (.start text)
  rw [run] at h
  rw [h] at hlimited
  generalize Parser.documentWithin _ _ _ = outcome at hlimited
  cases hlimited with
  | same hgives => exact Nat.not_lt.mp (hgives _ _ _ rfl)

end Mcfunction
