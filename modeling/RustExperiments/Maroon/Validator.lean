/- module: RustExperiments/Maroon/Validator
   digest: The stacks that the validator accepts, and which of them are not made of frames. -/

import RustExperiments.Maroon.Frames

set_option autoImplicit false
set_option relaxedAutoImplicit false

namespace RustExperiments.Maroon

open RustExperiments.Lib

section Blocks

/-- How many values the validator expects beneath an entry; none of a value itself. -/
def declared : MaroonTaskStackEntry → Option ℕ
  | .state s => some (maroonTaskStateLocalVarsCount s)
  | .retrn r => some (maroonTaskStateReturnLocalVarsCount r)
  | .value _ => none

/-- An entry together with the values that it declares, which lie beneath it. -/
structure Block where
  vals : List MaroonTaskStackEntryValue
  head : MaroonTaskStackEntry
  counted : declared head = some vals.length

def Block.entries (b : Block) : MaroonTaskStack := b.vals.map .value ++ [b.head]

def stackOf (bs : List Block) : MaroonTaskStack := bs.flatMap Block.entries

@[simp] theorem stackOf_nil : stackOf [] = [] := rfl

@[simp] theorem stackOf_concat (bs : List Block) (b : Block) :
    stackOf (bs ++ [b]) = stackOf bs ++ b.entries := by
  simp [stackOf]

@[simp] theorem stackOf_cons (b : Block) (bs : List Block) :
    stackOf (b :: bs) = b.entries ++ stackOf bs := by
  simp [stackOf]

theorem Block.entries_ne_nil (b : Block) : b.entries ≠ [] := by
  simp [Block.entries]

theorem stackOf_ne_nil {bs : List Block} (nonempty : bs ≠ []) : stackOf bs ≠ [] := by
  obtain ⟨lower, b, rfl⟩ := (List.eq_nil_or_concat' bs).resolve_left nonempty
  simp [b.entries_ne_nil]

theorem append_entries_inj {base base' : MaroonTaskStack} {b b' : Block}
    (h : base ++ b.entries = base' ++ b'.entries) : base = base' ∧ b = b' := by
  obtain ⟨vals, e, counted⟩ := b
  obtain ⟨vals', e', counted'⟩ := b'
  simp only [Block.entries, ← List.append_assoc] at h
  obtain ⟨hbelow, hhead⟩ := List.append_inj' h rfl
  obtain rfl : e = e' := by simpa using hhead
  have hlength : vals.length = vals'.length := Option.some.inj (counted.symm.trans counted')
  obtain ⟨hbase, hvals⟩ := List.append_inj' hbelow (by simpa using hlength)
  obtain rfl : vals = vals' :=
    List.map_injective_iff.mpr (fun _ _ hv => MaroonTaskStackEntry.value.inj hv) hvals
  exact ⟨hbase, rfl⟩

theorem stackOf_injective {bs bs' : List Block} (h : stackOf bs = stackOf bs') : bs = bs' := by
  induction bs using List.reverseRecOn generalizing bs' with
  | nil =>
    rcases List.eq_nil_or_concat' bs' with rfl | ⟨cs, b, rfl⟩
    · rfl
    · rw [stackOf_concat, stackOf_nil] at h
      exact absurd (List.append_eq_nil_iff.mp h.symm).2 b.entries_ne_nil
  | append_singleton bs b ih =>
    rcases List.eq_nil_or_concat' bs' with rfl | ⟨cs, b', rfl⟩
    · rw [stackOf_concat, stackOf_nil] at h
      exact absurd (List.append_eq_nil_iff.mp h).2 b.entries_ne_nil
    · rw [stackOf_concat, stackOf_concat] at h
      obtain ⟨hbelow, rfl⟩ := append_entries_inj h
      rw [ih hbelow]

theorem declared_of_cons_stackOf {e : MaroonTaskStackEntry} {bs bs' : List Block}
    (h : e :: stackOf bs = stackOf bs') : declared e = some 0 := by
  induction bs using List.reverseRecOn generalizing bs' with
  | nil =>
    rcases List.eq_nil_or_concat' bs' with rfl | ⟨cs, b, rfl⟩
    · simp at h
    · rw [stackOf_concat, Block.entries, ← List.append_assoc] at h
      rw [← List.nil_append (e :: _)] at h
      obtain ⟨hbelow, hhead⟩ := List.append_inj' h rfl
      obtain ⟨_, hvals⟩ := List.append_eq_nil_iff.mp hbelow.symm
      obtain rfl : e = b.head := by simpa using hhead
      rw [b.counted, List.map_eq_nil_iff.mp hvals, List.length_nil]
  | append_singleton bs b ih =>
    rcases List.eq_nil_or_concat' bs' with rfl | ⟨cs, b', rfl⟩
    · simp at h
    · rw [stackOf_concat, stackOf_concat, ← List.cons_append] at h
      exact ih (append_entries_inj h).1

end Blocks

section Walk

/-- What the walk goes through: blocks, perhaps over one entry that it never looks at. -/
def Walked (stk : MaroonTaskStack) : Prop :=
  ∃ bottom blocks, bottom.length ≤ 1 ∧ stk = bottom ++ stackOf blocks

theorem validateEntry_concat (below above : MaroonTaskStack) (e : MaroonTaskStackEntry) :
    validateEntry (below ++ e :: above) below.length =
      match declared e with
      | some n => .ok n
      | none => .error .invalidStack := by
  rw [validateEntry, List.getElem?_append_right (Nat.le_refl _), Nat.sub_self]
  cases e <;> rfl

theorem values_of_validateValues {n j : ℕ} {below above : MaroonTaskStack}
    (enough : n ≤ below.length) (h : validateValues (below ++ above) n below.length = .ok j) :
    ∃ (base : MaroonTaskStack) (vals : List MaroonTaskStackEntryValue),
      below = base ++ vals.map .value ∧ vals.length = n := by
  induction n generalizing below above with
  | zero => exact ⟨below, [], by simp, rfl⟩
  | succ n ih =>
    rcases List.eq_nil_or_concat' below with rfl | ⟨init, e, rfl⟩
    · simp at enough
    · rw [List.length_append, List.length_singleton] at enough
      rw [List.length_append, List.length_singleton] at h
      rw [validateValues, Nat.add_sub_cancel, List.append_assoc,
        List.getElem?_append_right (Nat.le_refl _), Nat.sub_self] at h
      cases e with
      | state s => cases h
      | retrn r => cases h
      | value v =>
        obtain ⟨base, vals, rfl, hlength⟩ := ih (Nat.le_of_succ_le_succ enough) h
        exact ⟨base, vals ++ [v], by simp, by simp [hlength]⟩

theorem block_of_validateFrom {below above : MaroonTaskStack} {e : MaroonTaskStackEntry}
    (nonempty : below ≠ [])
    (h : validateFrom (below ++ e :: above) below.length = .ok ()) :
    ∃ (base : MaroonTaskStack) (b : Block), below ++ [e] = base ++ b.entries ∧
      (base ≠ [] →
        validateFrom (base ++ (b.entries ++ above)) (base.length - 1) = .ok ()) := by
  have hpos : 0 < below.length := List.length_pos_of_ne_nil nonempty
  rw [validateFrom, if_pos hpos, validateEntry_concat] at h
  cases hdeclared : declared e with
  | none =>
    rw [hdeclared] at h
    cases h
  | some n =>
    simp only [hdeclared] at h
    have hmany : ¬ n > below.length := by
      intro hmany
      rw [if_pos hmany] at h
      cases h
    rw [if_neg hmany] at h
    cases hvalues : validateValues (below ++ e :: above) n below.length with
    | error p =>
      rw [hvalues] at h
      cases h
    | ok j =>
      obtain ⟨base, vals, rfl, rfl⟩ := values_of_validateValues (Nat.le_of_not_gt hmany) hvalues
      refine ⟨base, ⟨vals, e, hdeclared⟩, by simp [Block.entries], fun hbase => ?_⟩
      rw [hvalues] at h
      have hrest : (base ++ vals.map MaroonTaskStackEntry.value).length - vals.length =
          base.length := by simp
      have hlow : base.length ≠ 0 := fun hzero => hbase (List.length_eq_zero_iff.mp hzero)
      simp only [hrest, if_neg hlow] at h
      simpa [Block.entries] using h

theorem walked_of_validateFrom {stk above : MaroonTaskStack} (nonempty : stk ≠ [])
    (h : validateFrom (stk ++ above) (stk.length - 1) = .ok ()) : Walked stk := by
  induction hn : stk.length using Nat.strong_induction_on generalizing stk above with
  | _ n ih =>
    obtain ⟨below, e, rfl⟩ := (List.eq_nil_or_concat' stk).resolve_left nonempty
    rcases eq_or_ne below [] with rfl | hbelow
    · exact ⟨[e], [], by simp, by simp⟩
    · rw [List.append_assoc, List.singleton_append, List.length_append, List.length_singleton,
        Nat.add_sub_cancel] at h
      obtain ⟨base, b, hsplit, hbase⟩ := block_of_validateFrom hbelow h
      rcases eq_or_ne base [] with rfl | hlow
      · exact ⟨[], [b], by simp, by simp [hsplit, stackOf]⟩
      · have hshort : base.length < n := by
          have hlengths := congrArg List.length hsplit
          have hpos := List.length_pos_of_ne_nil b.entries_ne_nil
          simp only [List.length_append, List.length_singleton] at hlengths hn
          omega
        obtain ⟨bottom, blocks, hbottom, rfl⟩ := ih base.length hshort hlow (hbase hlow) rfl
        exact ⟨bottom, blocks ++ [b], hbottom, by simp [hsplit]⟩

theorem validateFrom_of_walked {stk : MaroonTaskStack} (above : MaroonTaskStack)
    (h : Walked stk) : validateFrom (stk ++ above) (stk.length - 1) = .ok () := by
  obtain ⟨bottom, blocks, hbottom, rfl⟩ := h
  induction blocks using List.reverseRecOn generalizing above with
  | nil =>
    have hlow : (bottom ++ stackOf []).length - 1 = 0 := by
      rw [stackOf_nil, List.append_nil]
      omega
    rw [hlow, validateFrom, if_neg (Nat.lt_irrefl 0)]
  | append_singleton blocks b ih =>
    obtain ⟨vals, e, counted⟩ := b
    have hturn := validateFrom_entry (bottom ++ stackOf blocks) above e vals (by
      have hentry := validateEntry_concat (bottom ++ stackOf blocks ++ vals.map .value) above e
      rw [counted] at hentry
      simpa [Nat.add_assoc] using hentry)
      (fun _ => by simpa using ih (vals.map .value ++ e :: above))
    have hlength : (bottom ++ stackOf (blocks ++ [⟨vals, e, counted⟩])).length - 1 =
        (bottom ++ stackOf blocks).length + vals.length := by
      simp [Block.entries]
      omega
    rw [hlength]
    simpa [Block.entries] using hturn

/-- The validator under `cfg(test)`, in full: it accepts what the walk goes through. -/
theorem debugValidate_iff (checks : Bool) (stk : MaroonTaskStack) :
    debugValidateMaroonStack ⟨true, checks⟩ stk = .ok () ↔ stk ≠ [] ∧ Walked stk := by
  rw [debugValidateMaroonStack, if_pos rfl]
  constructor
  · intro h
    split_ifs at h with hempty
    have nonempty : stk ≠ [] := fun hnil => hempty (by rw [hnil, List.length_nil])
    rw [← List.append_nil stk, List.length_append, List.length_nil, Nat.add_zero] at h
    exact ⟨nonempty, walked_of_validateFrom nonempty h⟩
  · rintro ⟨nonempty, hwalked⟩
    rw [if_neg fun hzero => nonempty (List.length_eq_zero_iff.mp hzero)]
    simpa using validateFrom_of_walked [] hwalked

end Walk

section Soundness

/-- The extraction phase of an executor iteration: the state on top and its local variables. -/
def extraction (stk : MaroonTaskStack) :
    Except Panic (MaroonTaskState × List MaroonTaskStackEntryValue × MaroonTaskStack) := do
  let (currentState, entries) ← popState stk
  let (vars, rest) ← popVars (maroonTaskStateLocalVarsCount currentState) entries
  .ok (currentState, vars, rest)

/-- An iteration that the validator let through ends with the panic of its extraction phase. -/
theorem executeOperation_extraction {W : Type} {H : PendingHeap} {p : Profile}
    {fsm : MaroonRuntime W H} {taskId : MaroonTaskId} {task : MaroonTask W}
    (ts : LogicalTimeAbsoluteMs) (writeResult : Except String Unit) {e : Panic}
    (hlookup : fsm.activeTasks.lookup taskId = some task)
    (accepted : debugValidateMaroonStack p task.maroonStack = .ok ())
    (panics : extraction task.maroonStack = .error e) :
    executeOperation p fsm taskId ts writeResult = .error e := by
  unfold extraction at panics
  cases hstate : popState task.maroonStack with
  | error e' =>
    rw [hstate] at panics
    cases panics
    simp [executeOperation, hlookup, accepted, hstate]
  | ok top =>
    simp only [hstate, except_ok_bind] at panics
    cases hvars : popVars (maroonTaskStateLocalVarsCount top.1) top.2 with
    | error e' =>
      rw [hvars] at panics
      cases panics
      simp [executeOperation, hlookup, accepted, hstate, hvars]
    | ok vars =>
      rw [hvars] at panics
      cases panics

/-- The extraction phase passes, and what it leaves splits into return frames. -/
def Extracts (stk : MaroonTaskStack) : Prop :=
  ∃ s vars rest, extraction stk = .ok (s, vars, rest) ∧ Frames FrameCounted rest

theorem eq_concat_of_popState {stk rest : MaroonTaskStack} {s : MaroonTaskState}
    (h : popState stk = .ok (s, rest)) : stk = rest ++ [.state s] := by
  rcases List.eq_nil_or_concat' stk with rfl | ⟨init, e, rfl⟩
  · cases h
  · rw [popState, vecPop_concat] at h
    cases e with
    | state s' =>
      cases h
      rfl
    | retrn r => cases h
    | value v => cases h

theorem eq_append_of_popVars {n : ℕ} {stk rest : MaroonTaskStack}
    {vars : List MaroonTaskStackEntryValue} (h : popVars n stk = .ok (vars, rest)) :
    stk = rest ++ vars.reverse.map .value ∧ vars.length = n := by
  induction n generalizing stk vars with
  | zero =>
    cases h
    exact ⟨by simp, rfl⟩
  | succ n ih =>
    rcases List.eq_nil_or_concat' stk with rfl | ⟨init, e, rfl⟩
    · cases h
    · rw [popVars, vecPop_concat] at h
      cases e with
      | state s => cases h
      | retrn r => cases h
      | value v =>
        dsimp only at h
        cases hrest : popVars n init with
        | error p =>
          rw [hrest] at h
          cases h
        | ok q =>
          rw [hrest] at h
          cases h
          obtain ⟨rfl, hlength⟩ := ih hrest
          exact ⟨by simp, by simp [hlength]⟩

theorem extracts_iff (stk : MaroonTaskStack) :
    Extracts stk ↔ ∃ (base : MaroonTaskStack) (s : MaroonTaskState)
      (vals : List MaroonTaskStackEntryValue), stk = base ++ vals.map .value ++ [.state s] ∧
        vals.length = maroonTaskStateLocalVarsCount s ∧ Frames FrameCounted base := by
  constructor
  · rintro ⟨s, vars, rest, hextraction, hframes⟩
    unfold extraction at hextraction
    cases hstate : popState stk with
    | error e =>
      rw [hstate] at hextraction
      cases hextraction
    | ok top =>
      simp only [hstate, except_ok_bind] at hextraction
      cases hvars : popVars (maroonTaskStateLocalVarsCount top.1) top.2 with
      | error e =>
        rw [hvars] at hextraction
        cases hextraction
      | ok q =>
        rw [hvars] at hextraction
        cases hextraction
        obtain ⟨hentries, hlength⟩ := eq_append_of_popVars hvars
        refine ⟨q.2, top.1, q.1.reverse, ?_, by simpa using hlength, hframes⟩
        rw [← hentries]
        exact eq_concat_of_popState hstate
  · rintro ⟨base, s, vals, rfl, hlength, hframes⟩
    refine ⟨s, vals.reverse, base, ?_, hframes⟩
    have hvars := popVars_concat base vals
    rw [hlength] at hvars
    simp only [extraction, popState_concat, except_ok_bind, hvars]

theorem frames_iff_stackOf (base : MaroonTaskStack) :
    Frames FrameCounted base ↔
      ∃ bs, base = stackOf bs ∧ ∀ b ∈ bs, ∃ r, b.head = .retrn r := by
  constructor
  · intro h
    induction h with
    | nil => exact ⟨[], rfl, by simp⟩
    | @push stk r vals _ frame ih =>
      obtain ⟨bs, rfl, hheads⟩ := ih
      have counted : declared (.retrn r) = some vals.length := congrArg some frame.symm
      refine ⟨bs ++ [⟨vals, .retrn r, counted⟩], by simp [Block.entries], fun b hb => ?_⟩
      rcases List.mem_append.mp hb with hb | hb
      · exact hheads b hb
      · rw [List.mem_singleton.mp hb]
        exact ⟨r, rfl⟩
  · rintro ⟨bs, rfl, hheads⟩
    induction bs using List.reverseRecOn with
    | nil => exact .nil
    | append_singleton bs b ih =>
      have hbelow := ih fun b' hb' => hheads b' (List.mem_append_left _ hb')
      obtain ⟨r, hr⟩ := hheads b (by simp)
      obtain ⟨vals, e, counted⟩ := b
      obtain rfl : e = .retrn r := hr
      rw [stackOf_concat, Block.entries, ← List.append_assoc]
      exact .push hbelow (Option.some.inj counted).symm

theorem extracts_iff_stackOf (stk : MaroonTaskStack) :
    Extracts stk ↔ ∃ bs top, stk = stackOf (bs ++ [top]) ∧
      (∀ b ∈ bs, ∃ r, b.head = .retrn r) ∧ ∃ s, top.head = .state s := by
  rw [extracts_iff]
  constructor
  · rintro ⟨base, s, vals, rfl, hlength, hframes⟩
    obtain ⟨bs, rfl, hheads⟩ := (frames_iff_stackOf base).mp hframes
    exact ⟨bs, ⟨vals, .state s, congrArg some hlength.symm⟩, by simp [Block.entries], hheads,
      s, rfl⟩
  · rintro ⟨bs, ⟨vals, e, counted⟩, rfl, hheads, s, hs⟩
    obtain rfl : e = .state s := hs
    exact ⟨stackOf bs, s, vals, by simp [Block.entries], (Option.some.inj counted).symm,
      (frames_iff_stackOf _).mpr ⟨bs, rfl, hheads⟩⟩

/-- The stacks that the walk gets through although an iteration or a return would not. -/
inductive Overlooked : MaroonTaskStack → Prop where
  /-- the walk stops above the bottom entry, which is no block by itself -/
  | stray {e : MaroonTaskStackEntry} (alone : declared e ≠ some 0) (bs : List Block) :
      Overlooked (e :: stackOf bs)
  /-- a return address is on top, where the state should be -/
  | retrnOnTop (bs : List Block) {top : Block} {r : MaroonTaskState} (head : top.head = .retrn r) :
      Overlooked (stackOf (bs ++ [top]))
  /-- a state is further down, where a return address should be -/
  | stateBelow (bs : List Block) {b : Block} {s : MaroonTaskState} (head : b.head = .state s)
      {above : List Block} (nonempty : above ≠ []) : Overlooked (stackOf (bs ++ b :: above))

theorem Overlooked.accepted {stk : MaroonTaskStack} (h : Overlooked stk) :
    stk ≠ [] ∧ Walked stk := by
  cases h with
  | @stray e _ bs => exact ⟨by simp, [e], bs, by simp, by simp⟩
  | @retrnOnTop bs top => exact ⟨stackOf_ne_nil (by simp), [], bs ++ [top], by simp, rfl⟩
  | @stateBelow bs b _ _ above =>
    exact ⟨stackOf_ne_nil (by simp), [], bs ++ b :: above, by simp, rfl⟩

theorem Overlooked.not_extracts {stk : MaroonTaskStack} (h : Overlooked stk) :
    ¬ Extracts stk := by
  rw [extracts_iff_stackOf]
  rintro ⟨frames, state, hstk, hframes, s, hs⟩
  cases h with
  | stray alone bs => exact alone (declared_of_cons_stackOf hstk)
  | retrnOnTop bs head =>
    obtain ⟨_, htop⟩ := List.append_inj' (stackOf_injective hstk) rfl
    obtain rfl := List.singleton_injective htop
    rw [hs] at head
    cases head
  | @stateBelow bs b s' head above nonempty =>
    obtain ⟨lower, last, rfl⟩ := (List.eq_nil_or_concat' above).resolve_left nonempty
    have hblocks : (bs ++ b :: lower) ++ [last] = frames ++ [state] := by
      rw [← stackOf_injective hstk]
      simp
    obtain ⟨hlower, _⟩ := List.append_inj' hblocks rfl
    obtain ⟨r, hr⟩ := hframes b (by simp [← hlower])
    rw [hr] at head
    cases head

theorem extracts_of_walked {stk : MaroonTaskStack} (nonempty : stk ≠ []) (walked : Walked stk)
    (h : ¬ Overlooked stk) : Extracts stk := by
  -- a bottom entry that the walk did not look at has to be a block by itself
  obtain ⟨blocks, rfl⟩ : ∃ blocks, stk = stackOf blocks := by
    obtain ⟨bottom, blocks, hbottom, rfl⟩ := walked
    match bottom, hbottom with
    | [], _ => exact ⟨blocks, rfl⟩
    | [e], _ =>
      by_cases alone : declared e = some 0
      · exact ⟨⟨[], e, alone⟩ :: blocks, by simp [Block.entries]⟩
      · exact absurd (.stray alone blocks) h
  rcases List.eq_nil_or_concat' blocks with rfl | ⟨bs, top, rfl⟩
  · exact absurd rfl nonempty
  refine (extracts_iff_stackOf _).mpr ⟨bs, top, rfl, fun b hb => ?_, ?_⟩
  · cases head : b.head with
    | retrn r => exact ⟨r, rfl⟩
    | value v =>
      have counted := b.counted
      rw [head] at counted
      cases counted
    | state s =>
      obtain ⟨lower, upper, rfl⟩ := List.append_of_mem hb
      have above : upper ++ [top] ≠ [] := by simp
      exact absurd (by simpa using Overlooked.stateBelow lower head above) h
  · cases head : top.head with
    | state s => exact ⟨s, rfl⟩
    | retrn r => exact absurd (.retrnOnTop bs head) h
    | value v =>
      have counted := top.counted
      rw [head] at counted
      cases counted

/-- The validator accepts exactly the stacks of the form, but for those that it overlooks. -/
theorem validator_exact_iff (checks : Bool) (stk : MaroonTaskStack) :
    ((debugValidateMaroonStack ⟨true, checks⟩ stk = .ok () → Extracts stk) ∧
      (Extracts stk → debugValidateMaroonStack ⟨true, checks⟩ stk = .ok ())) ↔
      ¬ Overlooked stk := by
  rw [debugValidate_iff]
  constructor
  · rintro ⟨sound, _⟩ hoverlooked
    exact hoverlooked.not_extracts (sound hoverlooked.accepted)
  · intro h
    refine ⟨fun accepted => extracts_of_walked accepted.1 accepted.2 h, fun hextracts => ?_⟩
    obtain ⟨bs, top, rfl, _, _⟩ := (extracts_iff_stackOf stk).mp hextracts
    exact ⟨stackOf_ne_nil (by simp), [], bs ++ [top], by simp, rfl⟩

/-- Accepted are a value alone, a value left over beneath a task without variables, and a return
address on top; the extraction phase panics on the first and the last of them. -/
theorem validator_overlooks_strays :
    (debugValidateMaroonStack ⟨true, true⟩ [.value (.factorialInput 5)] = .ok () ∧
      ¬ Extracts [.value (.factorialInput 5)]) ∧
    (debugValidateMaroonStack ⟨true, true⟩
        [.value (.factorialInput 5), .state .divisorsTaskBegin] = .ok () ∧
      ¬ Extracts [.value (.factorialInput 5), .state .divisorsTaskBegin]) ∧
    (debugValidateMaroonStack ⟨true, true⟩
        [.value (.factorialInput 5), .retrn .factorialDone] = .ok () ∧
      ¬ Extracts [.value (.factorialInput 5), .retrn .factorialDone]) := by
  have lone : Overlooked [.value (.factorialInput 5)] := .stray (by decide) []
  have under : Overlooked [.value (.factorialInput 5), .state .divisorsTaskBegin] :=
    .stray (by decide) [⟨[], .state .divisorsTaskBegin, rfl⟩]
  let frame : Block := ⟨[.factorialInput 5], .retrn .factorialDone, rfl⟩
  have address : Overlooked [.value (.factorialInput 5), .retrn .factorialDone] :=
    .retrnOnTop [] (show frame.head = .retrn .factorialDone from rfl)
  refine ⟨⟨(debugValidate_iff true _).mpr lone.accepted, lone.not_extracts⟩,
    ⟨(debugValidate_iff true _).mpr under.accepted, under.not_extracts⟩,
    (debugValidate_iff true _).mpr address.accepted, address.not_extracts⟩

end Soundness

end RustExperiments.Maroon
