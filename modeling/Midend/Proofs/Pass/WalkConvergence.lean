import Midend.Proofs.Pass.Optimizer

/-!
# The rounds of the walk come to an end

Every change that a walk reports uses something up.  An instruction in a block is worth two if somebody
uses it and one if not, and no simplification ever raises this: nothing is put into a block, and an
instruction without a use never gets one back, since the only instruction that gains uses is the first
operand of another.  Erasing and folding take an instruction out of its block, and a merge takes all uses
from one.  So the changes of all rounds together are at most twice the instructions, and from then on a
walk changes nothing.

## Main definitions

* `Program.worth`, `Program.stock`: what an instruction is worth, and all of them together.
* `Program.Fades`: nothing gains in worth.
* `Stats.changes`: the changes that walks report.
* `Session.Settles`: every change is paid for.
* `Session.nextRound`: the state in which another round begins.

## Main results

* `Session.stepRelation_settles`, `Session.exists_walk_eq`: a step and a walk pay for their changes.
* `Session.exists_settled`: after as many rounds as there is worth, a walk changes nothing.
* `walkRounds_settles`: rounds on the program of an accepted text.
-/

namespace Midend

/-! ### What instructions are worth -/

namespace Program

variable {p q r : Program}

/-- What is left to take from an instruction: its place in a block, and before that its uses. -/
def worth (p : Program) (i : InstrId) : Nat :=
  if (p.instr i).place.block?.isSome then if p.usesOf (.instr i) = [] then 1 else 2 else 0

/-- What the instructions of a list are worth together. -/
def stock (p : Program) (l : List InstrId) : Nat := sumOf p.worth l

theorem worth_of_inBlock {i : InstrId} {b : BlockRef} (hi : (p.instr i).place = .inBlock b) :
    p.worth i = if p.usesOf (.instr i) = [] then 1 else 2 := by
  unfold worth
  rw [hi]
  rfl

/-- The list has every instruction that is in a block. -/
def ListedIn (p : Program) (l : List InstrId) : Prop :=
  ∀ i b, (p.instr i).place = .inBlock b → i ∈ l

/-- Nothing is put into a block, and what nobody uses stays unused. -/
structure Fades (p q : Program) : Prop where
  /-- What is in a block was there before. -/
  placed : ∀ {i b}, (q.instr i).place = .inBlock b → (p.instr i).place = .inBlock b
  /-- What nobody used is not used now. -/
  unused : ∀ {i}, p.usesOf (.instr i) = [] → q.usesOf (.instr i) = []

theorem Fades.refl (p : Program) : p.Fades p := ⟨id, id⟩

theorem Fades.trans (h : p.Fades q) (h' : q.Fades r) : p.Fades r :=
  ⟨fun hi => h.placed (h'.placed hi), fun hi => h'.unused (h.unused hi)⟩

theorem Fades.listedIn (h : p.Fades q) {l : List InstrId} (hl : p.ListedIn l) : q.ListedIn l :=
  fun i b hi => hl i b (h.placed hi)

theorem Fades.worth_le (h : p.Fades q) (i : InstrId) : q.worth i ≤ p.worth i := by
  cases hq : (q.instr i).place with
  | inBlock b =>
    rw [worth_of_inBlock hq, worth_of_inBlock (h.placed hq)]
    by_cases hunused : p.usesOf (.instr i) = []
    · exact Nat.le_of_eq (by rw [if_pos hunused, if_pos (h.unused hunused)])
    · rw [if_neg hunused]
      split <;> omega
  | _ =>
    unfold worth
    rw [hq]
    exact Nat.zero_le _

theorem Fades.detach (p : Program) (i : InstrId) : p.Fades (p.detach i) where
  placed {j b} hj := by
    rw [instr_detach] at hj
    split at hj
    · cases hj
    · exact hj
  unused {j} hj := by
    have hsub := usesOf_detach_sublist p i (.instr j)
    rw [hj] at hsub
    exact List.sublist_nil.mp hsub

/-- Moving the uses of a value to a constant, or to an instruction that is used already. -/
theorem Fades.redirect {old new : Value} (hne : old ≠ new)
    (hnew : ∀ i, new = .instr i → p.usesOf new ≠ []) : p.Fades (p.redirect old new) where
  placed {i b} hi := by rwa [(sameButOperands_redirect p old new).place] at hi
  unused {i} hi := by
    rw [usesOf_redirect p hne]
    split
    · next heq => exact absurd (heq ▸ hi) (hnew i heq)
    · split
      · rfl
      · exact hi

theorem Fades.replaceOperand (slot : Use) {v : Value} (hv : ∀ i, v = .instr i → p.usesOf v ≠ []) :
    p.Fades (p.replaceOperand slot v) where
  placed {i b} hi := by rwa [(sameButOperands_replaceOperand p slot v).place] at hi
  unused {i} hi := by
    refine usesOf_replaceOperand_eq_nil (fun heq => ?_) hi
    exact hv i heq (heq ▸ hi)

theorem Fades.fold (p : Program) (i : InstrId) (c : Const) : p.Fades (p.fold i c) := by
  have hpush : p.Fades { p with consts := p.consts.push c } := ⟨id, id⟩
  have hredirect : Fades { p with consts := p.consts.push c }
      ({ p with consts := p.consts.push c }.redirect (.instr i) (.const p.consts.size)) :=
    .redirect (fun heq => by cases heq) fun j heq => by cases heq
  exact (hpush.trans hredirect).trans (.detach _ i)

/-- An instruction in a block is worth something. -/
theorem worth_pos {i : InstrId} {b : BlockRef} (hi : (p.instr i).place = .inBlock b) :
    0 < p.worth i := by
  rw [worth_of_inBlock hi]
  split <;> omega

theorem worth_detach_self (p : Program) (i : InstrId) : (p.detach i).worth i = 0 := by
  unfold worth
  rw [instr_detach, if_pos rfl]
  rfl

/-- All instructions of the blocks, function by function. -/
def allInstrs (p : Program) : List InstrId := (List.range p.funcs.size).flatMap p.funcInstrs

theorem Coherent.listedIn_allInstrs (h : p.Coherent) : p.ListedIn p.allInstrs := by
  intro i b hi
  have hlisted := (h.listed b i).mpr hi
  have hfunc := (hasBlock_of_mem hlisted).func_lt
  exact List.mem_flatMap.mpr ⟨b.func, List.mem_range.mpr hfunc, h.mem_funcInstrs.mpr ⟨b, hi, rfl⟩⟩

/-- The blocks know how many instructions a function has. -/
theorem Arranged.length_funcInstrs (h : p.Arranged) (f : FuncId) :
    (p.funcInstrs f).length = p.instrCount f := by
  have hsize : ∀ blk ∈ (p.func f).blocks.toList, blk.instrs.length = blk.size := by
    intro blk hblk
    rw [toList_blocks, List.mem_map] at hblk
    obtain ⟨b, -, rfl⟩ := hblk
    exact (h.size b).symm
  rw [funcInstrs, length_flatMap_eq_sumOf, instrCount]
  exact Nat.le_antisymm (sumOf_le fun blk hblk => Nat.le_of_eq (hsize blk hblk))
    (sumOf_le fun blk hblk => Nat.le_of_eq (hsize blk hblk).symm)

theorem Arranged.length_allInstrs (h : p.Arranged) : p.allInstrs.length = p.size.instructions := by
  unfold allInstrs Program.size
  rw [length_flatMap_eq_sumOf]
  exact congrArg (sumOf · _) (funext h.length_funcInstrs)

theorem worth_le_two (p : Program) (i : InstrId) : p.worth i ≤ 2 := by
  unfold worth
  split
  · split <;> omega
  · omega

/-- All instructions together are worth at most two each. -/
theorem Arranged.stock_allInstrs_le (h : p.Arranged) : p.stock p.allInstrs ≤ 2 * p.size.instructions := by
  rw [← h.length_allInstrs, ← sumOf_const]
  exact sumOf_le fun i _ => p.worth_le_two i

end Program

/-! ### Merges -/

namespace SiblingMerge.Fits

variable {m : SiblingMerge}

/-- The value has a use already: it is an operand of the first of the siblings. -/
theorem value_used (h : m.Fits) (hp : m.before.WellFormed) : m.before.usesOf m.value ≠ [] := by
  intro hunused
  exact hp.exact.not_mem_operands hunused m.first (List.mem_of_head? h.head)

theorem fades (h : m.Fits) (hp : m.before.WellFormed) : m.before.Fades m.outcome := by
  have hmoved : m.before.Fades (m.before.redirect (.instr m.second) m.value) :=
    .redirect (Ne.symm h.value_ne) fun _ _ => h.value_used hp
  have hafter : m.before.Fades m.after := by
    refine hmoved.trans (.replaceOperand _ fun _ _ => ?_)
    rw [Program.usesOf_redirect _ (Ne.symm h.value_ne), if_pos rfl]
    exact fun hnil => h.value_used hp (List.append_eq_nil_iff.mp hnil).1
  unfold outcome
  split
  · exact hafter.trans (.detach _ _)
  · exact hafter

/-- The second of the siblings is in a block and used, and afterwards nobody uses it. -/
theorem worth_second_lt (h : m.Fits) (hp : m.before.WellFormed) :
    (∃ b, (m.before.instr m.second).place = .inBlock b) ∧
      m.outcome.worth m.second < m.before.worth m.second := by
  obtain ⟨hops, -⟩ := siblings?_eq_some h.siblings
  have hmem : some (.instr m.second) ∈ (m.before.instr m.user).operands := by simp [hops]
  obtain ⟨b, hb⟩ := hp.exists_block (i := m.user) (by simp [hops])
  obtain ⟨c, hc, -⟩ := hp.func_of_mem hb hmem
  refine ⟨⟨c, hc⟩, ?_⟩
  have hbefore : m.before.worth m.second = 2 := by
    rw [Program.worth_of_inBlock hc, if_neg]
    exact fun hunused => hp.exact.not_mem_operands hunused m.user hmem
  have hunused : m.outcome.usesOf (.instr m.second) = [] := by
    unfold outcome
    split
    · exact (Program.Fades.detach _ _).unused h.second_unused
    · exact h.second_unused
  rw [hbefore]
  unfold Program.worth
  rw [if_pos hunused]
  split <;> omega

end SiblingMerge.Fits

/-! ### Walks -/

/-- The changes that walks report. -/
def Stats.changes (c : Stats) : Nat := c.erased + c.folded + c.cse

namespace Session

variable {s t u : Session}

/-- Every change is paid for by what instructions lose in worth, and there is a change just if it is
reported. -/
structure Settles (changed : Bool) (s t : Session) : Prop where
  /-- Nothing gains in worth. -/
  fades : s.program.Fades t.program
  /-- The changes are paid for. -/
  paid : ∀ l, s.program.ListedIn l →
    t.stats.changes + t.program.stock l ≤ s.stats.changes + s.program.stock l
  /-- Without a report everything is as it was. -/
  idle : changed = false → t.program = s.program ∧ t.stats = s.stats
  /-- A report stands for a change. -/
  busy : changed = true → s.stats.changes < t.stats.changes
  /-- Rounds are counted elsewhere. -/
  rounds : t.stats.rounds = s.stats.rounds

/-- Entries in the trace and in the log. -/
theorem Settles.quiet (hprogram : t.program = s.program) (hstats : t.stats = s.stats) :
    Settles false s t where
  fades := by
    rw [hprogram]
    exact .refl _
  paid l _ := Nat.le_of_eq (by rw [hprogram, hstats])
  idle _ := ⟨hprogram, hstats⟩
  busy h := by cases h
  rounds := by rw [hstats]

theorem Settles.trans {c d : Bool} (h : Settles c s t) (h' : Settles d t u) :
    Settles (c || d) s u where
  fades := h.fades.trans h'.fades
  paid l hl := by
    have hfirst := h.paid l hl
    have hsecond := h'.paid l (h.fades.listedIn hl)
    omega
  idle hquiet := by
    rw [Bool.or_eq_false_iff] at hquiet
    obtain ⟨hprogram, hstats⟩ := h.idle hquiet.1
    obtain ⟨hprogram', hstats'⟩ := h'.idle hquiet.2
    exact ⟨hprogram'.trans hprogram, hstats'.trans hstats⟩
  busy hchanged := by
    cases c with
    | true =>
      have hfirst := h.busy rfl
      cases d with
      | true => exact Nat.lt_trans hfirst (h'.busy rfl)
      | false =>
        rw [(h'.idle rfl).2]
        exact hfirst
    | false =>
      rw [← (h.idle rfl).2]
      exact h'.busy hchanged
  rounds := h'.rounds.trans h.rounds

/-- A change that takes worth from an instruction in a block. -/
theorem Settles.of_lt {i : InstrId} {b : BlockRef} (hfades : s.program.Fades t.program)
    (hi : (s.program.instr i).place = .inBlock b) (hlt : t.program.worth i < s.program.worth i)
    (hchanges : t.stats.changes = s.stats.changes + 1) (hrounds : t.stats.rounds = s.stats.rounds) :
    Settles true s t where
  fades := hfades
  paid l hl := by
    have hstock : t.program.stock l + 1 ≤ s.program.stock l :=
      sumOf_add_le (fun j _ => hfades.worth_le j) (hl i b hi) hlt
    omega
  idle h := by cases h
  busy _ := by omega
  rounds := hrounds

/-- An instruction leaves its block. -/
theorem Settles.erase {p : Program} {i : InstrId} {b : BlockRef}
    (hi : (s.program.instr i).place = .inBlock b) (hfades : s.program.Fades (p.detach i))
    (hprogram : t.program = p.detach i) (hchanges : t.stats.changes = s.stats.changes + 1)
    (hrounds : t.stats.rounds = s.stats.rounds) : Settles true s t := by
  rw [← hprogram] at hfades
  refine .of_lt hfades hi ?_ hchanges hrounds
  rw [hprogram, Program.worth_detach_self]
  exact Program.worth_pos hi

/-- A merge takes the uses from the second of the siblings. -/
theorem Settles.merge {m : SiblingMerge} (h : m.Fits) (hbefore : m.before = s.program)
    (hs : s.program.WellFormed) (hprogram : m.outcome.Fades t.program)
    (hchanges : t.stats.changes = s.stats.changes + 1) (hrounds : t.stats.rounds = s.stats.rounds) :
    Settles true s t := by
  rw [← hbefore] at hs
  obtain ⟨⟨b, hb⟩, hlt⟩ := h.worth_second_lt hs
  refine .of_lt (i := m.second) (b := b) ?_ ?_ ?_ hchanges hrounds
  · rw [← hbefore]
    exact (h.fades hs).trans hprogram
  · rw [← hbefore]
    exact hb
  · rw [← hbefore]
    exact Nat.lt_of_le_of_lt (hprogram.worth_le m.second) hlt

theorem stepRelation_settles : StepRelation Settles where
  quiet := .quiet
  trans := .trans
  erase {s t i} _ hi hdead hprogram hstats := by
    obtain ⟨b, hb⟩ := hdead.exists_block hi
    refine .erase hb (.detach _ i) hprogram ?_ ?_
    · rw [hstats]
      unfold Stats.changes
      dsimp only
      omega
    · rw [hstats]
  fold {s t i c} _ hi hc hprogram hstats := by
    obtain ⟨hplace, -⟩ := foldedConst?_eq_some_iff.mp hc
    obtain ⟨b, hb⟩ := Instr.exists_block hplace hi
    refine .erase hb (.fold _ i c) hprogram ?_ ?_
    · rw [hstats]
      unfold Stats.changes
      dsimp only
      omega
    · rw [hstats]
  merge {s t m} hs hbefore hfits hprogram hstats := by
    refine .merge hfits hbefore hs ?_ ?_ ?_
    · rcases hprogram with hprogram | ⟨d, -, hprogram⟩
      · rw [hprogram]
        exact .refl _
      · rw [hprogram]
        exact .detach _ d
    · rw [hstats]
      rfl
    · rw [hstats]

/-- **A walk pays for its changes,** and without a change it leaves everything as it was. -/
theorem exists_walk_eq (hs : s.program.WellFormed) :
    ∃ changed t, walk s = (.ok changed, t) ∧ t.program.WellFormed ∧ Settles changed s t := by
  obtain ⟨changed, t, hrun, hleads, hsettles⟩ :=
    (stepRelation_settles.walkRelation.walks_walk s hs).exists_eq
  exact ⟨changed, t, hrun, hleads.wellFormed hs, hsettles⟩

/-! ### Rounds -/

/-- The state in which another round begins. -/
def nextRound (s : Session) : Session :=
  { s with stats := { s.stats with rounds := s.stats.rounds + 1 } }

/-- A round, after which the others follow if it changed anything. -/
theorem walkRounds_succ {changed : Bool} (h : walk s.nextRound = (.ok changed, t)) (n : Nat) :
    walkRounds (n + 1) s = if changed then walkRounds n t else (.ok (), t) := by
  have hround : walkRounds (n + 1) s =
      (walk >>= fun c => if c then walkRounds n else pure () : Pass Unit) s.nextRound :=
    Act.bind_of_ok rfl
  rw [hround, Act.bind_of_ok h]
  cases changed <;> rfl

/-- The changes of all rounds are paid for. -/
theorem exists_walkRounds_eq {l : List InstrId} (n : Nat) (hs : s.program.WellFormed)
    (hl : s.program.ListedIn l) :
    ∃ t, walkRounds n s = (.ok (), t) ∧ t.program.WellFormed ∧
      t.stats.changes + t.program.stock l ≤ s.stats.changes + s.program.stock l := by
  induction n generalizing s with
  | zero => exact ⟨s, rfl, hs, Nat.le_refl _⟩
  | succ n ih =>
    obtain ⟨changed, t, hwalk, ht, hsettles⟩ := exists_walk_eq (s := s.nextRound) hs
    have hpaid : t.stats.changes + t.program.stock l ≤ s.stats.changes + s.program.stock l :=
      hsettles.paid l hl
    rw [walkRounds_succ hwalk]
    cases changed with
    | false => exact ⟨t, rfl, ht, hpaid⟩
    | true =>
      obtain ⟨u, hrun, hu, hrest⟩ := ih ht (hsettles.fades.listedIn hl)
      exact ⟨u, hrun, hu, Nat.le_trans hrest hpaid⟩

/-- **After at most as many rounds as there is worth, a walk changes nothing,** and that ends the
rounds. -/
theorem exists_settled {l : List InstrId} (hs : s.program.WellFormed) (hl : s.program.ListedIn l) :
    ∃ k ≤ s.program.stock l, ∃ u t, walkRounds k s = (.ok (), u) ∧
      u.stats.rounds = s.stats.rounds + k ∧ walk u.nextRound = (.ok false, t) ∧
      Settles false u.nextRound t ∧ ∀ n, k < n → walkRounds n s = (.ok (), t) := by
  -- What a round that changes something takes from the stock makes room for it.
  induction hstock : s.program.stock l using Nat.strongRecOn generalizing s with
  | _ stock ih =>
    obtain ⟨changed, t, hwalk, ht, hsettles⟩ := exists_walk_eq (s := s.nextRound) hs
    cases changed with
    | false =>
      refine ⟨0, Nat.zero_le _, s, t, rfl, rfl, hwalk, hsettles, fun n hn => ?_⟩
      obtain ⟨n, rfl⟩ := Nat.exists_eq_succ_of_ne_zero (Nat.ne_of_gt hn)
      exact walkRounds_succ hwalk n
    | true =>
      have hbusy : s.stats.changes < t.stats.changes := hsettles.busy rfl
      have hpaid : t.stats.changes + t.program.stock l ≤ s.stats.changes + s.program.stock l :=
        hsettles.paid l hl
      have hrounds : t.stats.rounds = s.stats.rounds + 1 := hsettles.rounds
      obtain ⟨k, hk, u, r, hrun, hcount, hend, hidle, hafter⟩ :=
        ih (t.program.stock l) (by omega) ht (hsettles.fades.listedIn hl) rfl
      refine ⟨k + 1, by omega, u, r, ?_, by omega, hend, hidle, fun n hn => ?_⟩
      · exact (walkRounds_succ hwalk k).trans hrun
      · obtain ⟨n, rfl⟩ := Nat.exists_eq_succ_of_ne_zero (Nat.ne_of_gt (Nat.zero_lt_of_lt hn))
        exact (walkRounds_succ hwalk n).trans (hafter n (Nat.lt_of_succ_lt_succ hn))

end Session

/-! ### Programs of accepted texts -/

variable {name : String} {src : ByteArray} {p : Program}

/-- Limits that make no difference to the rounds make none to the result. -/
theorem optimize_congr_maxRounds (o : Options) {n m : Int}
    (h : walkRounds n.toNat { program := p } = walkRounds m.toNat { program := p }) :
    optimize { o with maxRounds := n } p = optimize { o with maxRounds := m } p := by
  have hrewrite : rewritePass { o with maxRounds := n } { program := p } =
      rewritePass { o with maxRounds := m } { program := p } := by
    unfold rewritePass
    dsimp only
    split
    · exact Act.bind_congr_run h
    · rfl
  exact Act.bind_congr_run hrewrite

/-- **The rounds of the walk come to an end.**  On the program of an accepted text they make at most two
changes for every instruction.  A walk that reports no change has made none.  So with a limit above
twice the number of instructions it is such a walk that ends the rounds, and the limit makes no
difference to anything. -/
theorem walkRounds_settles (h : Program.parse name src = .ok p) :
    (∀ n, ∃ t, walkRounds n { program := p } = (.ok (), t) ∧ t.program.WellFormed ∧
      t.stats.erased + t.stats.folded + t.stats.cse ≤ 2 * p.size.instructions) ∧
    (∀ s t : Session, s.program.WellFormed → walk s = (.ok false, t) →
      t.program = s.program ∧ t.stats = s.stats) ∧
    (∃ k ≤ 2 * p.size.instructions, ∃ u t, walkRounds k { program := p } = (.ok (), u) ∧
      u.stats.rounds = k ∧ walk u.nextRound = (.ok false, t) ∧ t.program = u.program ∧
      t.stats = u.nextRound.stats ∧ ∀ n, k < n → walkRounds n { program := p } = (.ok (), t)) ∧
    ∀ (o : Options) (n m : Int), 2 * p.size.instructions + 1 ≤ n → 2 * p.size.instructions + 1 ≤ m →
      optimize { o with maxRounds := n } p = optimize { o with maxRounds := m } p := by
  have hp := (Program.wellFormed_of_parse h).1
  have hlisted := hp.listedIn_allInstrs
  have hstock := hp.stock_allInstrs_le
  obtain ⟨k, hk, u, t, hrun, hrounds, hwalk, hidle, hafter⟩ :=
    Session.exists_settled (s := { program := p }) hp hlisted
  obtain ⟨hprogram, hstats⟩ := hidle.idle rfl
  refine ⟨fun n => ?_, fun s r hs hquiet => ?_, ⟨k, Nat.le_trans hk hstock, u, t, hrun, ?_, hwalk,
    hprogram, hstats, hafter⟩, fun o n m hn hm => ?_⟩
  · obtain ⟨r, hr, hwf, hpaid⟩ := Session.exists_walkRounds_eq (s := { program := p }) n hp hlisted
    refine ⟨r, hr, hwf, ?_⟩
    have hstart : ({ program := p } : Session).stats.changes = 0 := rfl
    unfold Stats.changes at hpaid hstart
    dsimp only at hpaid
    omega
  · obtain ⟨changed, r', hrun', -, hsettles⟩ := Session.exists_walk_eq hs
    rw [hrun'] at hquiet
    cases hquiet
    exact hsettles.idle rfl
  · rw [hrounds]
    exact Nat.zero_add k
  · have hlimit : ∀ n : Int, 2 * p.size.instructions + 1 ≤ n → k < n.toNat := by
      intro n hn
      dsimp only at hk
      omega
    refine optimize_congr_maxRounds o ?_
    rw [hafter _ (hlimit n hn), hafter _ (hlimit m hm)]

/-- A text whose instructions go one round after another.  The operands of `%u` are merged; what nobody
uses in it is erased from the end. -/
def dwindling : ByteArray :=
  ("func @f(%a: i32) \x7b\nentry:\n    %p = add i32 %a, 1\n    %q = add i32 %a, 2\n" ++
    "    %u = mul i32 %p, %q\n    %v = sub i32 %u, 3\n    %w = sub i32 %v, 4\n    ret void\n" ++
    "\x7d\n").toUTF8

theorem walkRounds_settles_dwindling : ∃ p, Program.parse "m" dwindling = .ok p ∧
    p.size.instructions = 6 ∧
    (∃ t, walkRounds 3 { program := p } = (.ok (), t) ∧
      t.stats.erased + t.stats.folded + t.stats.cse ≤ 12) ∧
    (optimize { constProp := false, maxRounds := 13 } p).2.stats =
      { rounds := 5, erased := 5, cse := 1 } ∧
    optimize { constProp := false, maxRounds := 1000 } p =
      optimize { constProp := false, maxRounds := 13 } p := by
  obtain ⟨p, hp, hfound⟩ : ∃ p, Program.parse "m" dwindling = .ok p ∧
      (p.size.instructions == 6 && (optimize { constProp := false, maxRounds := 13 } p).2.stats ==
        { rounds := 5, erased := 5, cse := 1 }) = true :=
    Program.exists_of_parse (by decide +kernel)
  rw [Bool.and_eq_true, beq_iff_eq, beq_iff_eq] at hfound
  obtain ⟨hsize, hstats⟩ := hfound
  obtain ⟨hchanges, -, -, hsame⟩ := walkRounds_settles hp
  rw [hsize] at hchanges hsame
  obtain ⟨t, ht, -, hle⟩ := hchanges 3
  exact ⟨p, hp, hsize, ⟨t, ht, hle⟩, hstats,
    hsame { constProp := false } 1000 13 (by decide) (by decide)⟩

end Midend
