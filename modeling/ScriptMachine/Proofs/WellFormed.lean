/-
  ScriptMachine.Proofs.WellFormed

  Compiled code is well formed.  Whatever scripts and tables are compiled in
  whatever order, a finished program is a sequence of complete instructions that
  ends in `stop`, and every jump in it goes to the start of one of them
  (`Compile.finished_code_wellFormed`).
-/

import ScriptMachine.Proofs.Feeding
import ScriptMachine.Proofs.Structured.Refinement

namespace ScriptMachine

/-- The stream is the bytes of the instructions `is` and reads as these, the last
of them stops, and every jump goes to the start of one of them. -/
structure Code.WellFormed (c : Code) (is : List Instruction) : Prop where
  bytes : c.toList = Instruction.stream is
  reading : c.instructions = .ok (Instruction.located 0 is)
  stops : is.getLast? = some .stop
  lands : ∀ a i, (a, i) ∈ Instruction.located 0 is → ∀ dest, i.dest? = some dest →
    ∃ b j, (b, j) ∈ Instruction.located 0 is ∧ b < c.size ∧ dest = Int64.ofNat b

/-- Where a plan is cut, an instruction of the plan with its `stop` begins. -/
theorem Plan.mem_located (f : Label → Int64) (qs rs : Plan) :
    ∃ j, (size qs, j) ∈
      Instruction.located 0 (Plan.resolved f (qs ++ rs ++ [.plain .stop])) := by
  obtain ⟨r, ts, hcons⟩ : ∃ r ts, rs ++ [Planned.plain .stop] = r :: ts :=
    List.exists_cons_of_ne_nil (by simp)
  refine ⟨r.resolved f, ?_⟩
  rw [List.append_assoc, hcons, Plan.resolved, List.map_append, Instruction.located_append]
  have hsize : (Instruction.stream (Plan.resolved f qs)).length = size qs := by
    rw [← Plan.bytes_eq_stream, Plan.length_bytes]
  rw [Plan.resolved] at hsize
  rw [hsize, Nat.zero_add]
  exact List.mem_append_right _ List.mem_cons_self

/-- A plan whose labels have addresses inside it makes a well-formed stream. -/
theorem Plan.wellFormed {c : Code} {blocks : Blocks} {ps : Plan} (hl : ps.Legible)
    (hcode : c.toList = Plan.bytes blocks.operand (ps ++ [.plain .stop]))
    (hsome : ∀ l ∈ ps.labels, (blocks.address? l).isSome)
    (hcut : ∀ l a, blocks.address? l = some a → ∃ qs rs, ps = qs ++ rs ∧ a = Plan.size qs) :
    c.WellFormed (Plan.resolved blocks.operand (ps ++ [.plain .stop])) := by
  have hlegible : Plan.Legible (ps ++ [.plain .stop]) :=
    Plan.legible_append hl (Plan.legible_singleton ⟨trivial, rfl⟩)
  have hbytes : c.toList =
      Instruction.stream (Plan.resolved blocks.operand (ps ++ [.plain .stop])) := by
    rw [hcode, Plan.bytes_eq_stream]
  have hsize : c.size = Plan.size ps + 2 := by
    have hlen := congrArg List.length hcode
    rw [Plan.length_bytes, Plan.size_append, Array.length_toList] at hlen
    exact hlen
  refine ⟨hbytes, ?_, ?_, ?_⟩
  · exact Code.instructions_of_toList (Plan.legible_resolved _ hlegible) hbytes
  · simp [Plan.resolved, Planned.resolved]
  · intro a i hi dest hdest
    obtain ⟨p, hp, rfl⟩ := List.mem_map.1 (Instruction.mem_of_mem_located hi)
    rw [Planned.dest?_resolved _ (hlegible p hp)] at hdest
    obtain ⟨l, hlabel, rfl⟩ := Option.map_eq_some_iff.1 hdest
    -- the jump is one of the plan, not the `stop` behind it
    have hmem : l ∈ Plan.labels ps := by
      rcases List.mem_append.1 hp with hp | hp
      · exact List.mem_filterMap.2 ⟨p, hp, hlabel⟩
      · obtain rfl := List.mem_singleton.1 hp
        cases hlabel
    obtain ⟨b, hb⟩ := Option.isSome_iff_exists.1 (hsome l hmem)
    obtain ⟨qs, rs, rfl, rfl⟩ := hcut l b hb
    obtain ⟨j, hj⟩ := Plan.mem_located blocks.operand qs rs
    refine ⟨_, j, hj, ?_, ?_⟩
    · rw [hsize, Plan.size_append]
      omega
    · rw [Blocks.operand, hb]
      rfl

namespace Compile

/-- Compiled code is well formed: whatever a fresh compile run is fed with, a
program that is finished is the bytes of complete instructions, which is also how
it disassembles; the last of them is `stop`; and the operand of every jump is the
address at which one of them starts, as a number and not only modulo its 64 bits
in every stream that 63 bits can address. -/
theorem finished_code_wellFormed (config : Config) (feeds : List Feed) (p : Program) (c : Compiler)
    (h : (do feeds.forM Feed.load; finish : Compile Program) (Compiler.ofConfig config) = .ok p c) :
    ∃ is, p.code.WellFormed is ∧ (∃ text, p.code.disassembly = .ok text) ∧
      (p.code.size < 2 ^ 63 → ∀ a i, (a, i) ∈ Instruction.located 0 is → ∀ dest,
        i.dest? = some dest → ∃ b j, (b, j) ∈ Instruction.located 0 is ∧ dest.toInt = b) := by
  obtain ⟨_, d, hfeeds, hfinish⟩ := bind_eq_ok_iff.1 h
  obtain ⟨ps, hcode, hfixups, hlegible, hcut⟩ :=
    ofConfig_grows (keeps_forM whole_load feeds _ _ _ hfeeds)
  obtain ⟨hbytes, hsome⟩ := finish_plan hcode hfixups hfinish
  have hwf := Plan.wellFormed hlegible hbytes hsome hcut
  refine ⟨_, hwf, ?_, ?_⟩
  · unfold Code.disassembly
    rw [hwf.reading]
    exact ⟨_, rfl⟩
  · intro hsize a i hi dest hdest
    obtain ⟨b, j, hj, hb, rfl⟩ := hwf.lands a i hi dest hdest
    exact ⟨b, j, hj, Int64.toInt_ofNat_of_lt (Nat.lt_trans hb hsize)⟩

open Structured in
theorem countdown_wellFormed :
    ∃ p c, (do [Feed.script "" countdown.source].forM Feed.load; finish : Compile Program)
        (Compiler.ofConfig {}) = .ok p c ∧
      ∃ is, p.code.WellFormed is ∧ (∃ text, p.code.disassembly = .ok text) ∧
        (p.code.size < 2 ^ 63 → ∀ a i, (a, i) ∈ Instruction.located 0 is → ∀ dest,
          i.dest? = some dest → ∃ b j, (b, j) ∈ Instruction.located 0 is ∧ dest.toInt = b) := by
  obtain ⟨p, hp⟩ := Block.compiles (b := countdown)
    ⟨by decide, by decide, by decide +kernel, by decide, by decide +kernel⟩ (by decide) (by decide) ""
  obtain ⟨c, c', htakes, hfinish⟩ := compile_eq_ok_iff.1 hp
  have hload : [Feed.script "" countdown.source].forM Feed.load (Compiler.ofConfig {}) = .ok () c :=
    bind_eq_ok_iff.2 ⟨(), c, script_eq_ok_iff.2 htakes, rfl⟩
  have hrun : (do [Feed.script "" countdown.source].forM Feed.load; finish : Compile Program)
      (Compiler.ofConfig {}) = .ok p c' := bind_eq_ok_iff.2 ⟨(), c, hload, hfinish⟩
  exact ⟨p, c', hrun, finished_code_wellFormed {} _ p c' hrun⟩

end Compile

end ScriptMachine
