import Endmark.Proofs.Lowering.Scoping
import Endmark.Proofs.Typed.Spelling
import Endmark.Tree.Statements

/-!
# Lowered programs write before they read

In the code of an accepted program without raw blocks every variable other than a parameter is
written before it is read, on every way through the code.  Only the variable of a `for` loop
may be read after the loop when the loop has had no round.
-/

namespace Endmark.Typed

open Endmark.Tree (Program)

/-- Nothing is demanded of names. -/
def anyNames : Vocabulary :=
  ⟨fun _ => True, fun _ => True, fun _ _ => True, fun _ => True, fun _ => True⟩

theorem Function.within_anyNames (f : Function) :
  f.Within anyNames
  := by
  have hvariable (v : Variable) : anyNames.variable v := by cases v <;> trivial
  refine ⟨⟨fun e _ => ?_, fun st _ => ?_⟩, fun _ _ => trivial, fun _ _ => trivial⟩
  · cases e with
    | var _ v => apply hvariable v
    | function => exact ⟨0, trivial⟩
    | _ => trivial
  · unfold Stmt.Uses
    split
    · apply hvariable
    · apply hvariable
    · trivial
    · trivial

end Endmark.Typed

namespace Endmark.Lowering

open Ir (WordType Instr)

theorem params_of_function (h : function globals strings reports f = .ok (g, strings', reports')) :
  g.params.map (·.name) = f.params.map (·.name)
  := by
  simp only [function] at h
  split at h
  · cases h
  · cases h
    simp [varOf]

/-- The code of a function writes a variable before it reads it, if the function does and there is
nothing to report. -/
theorem function_fits (hf : f.settled x)
    (h : function globals strings reports f = .ok (g, strings', reports')) :
  reports.size ≤ reports'.size ∧ (reports'.size ≤ reports.size → ∃ marks, Ir.Fits x marks g.body)
  := by
  let A : Aim := ⟨anyNames, False, True, x, { untouched with reports }⟩
  have hA : A.strict := .inr trivial
  obtain ⟨-, -, hsize, p, hcode, rfl, -⟩ := exists_point (A := A)
    (fun _ => serves_anyNames hA) nofun rfl f.within_anyNames (fun _ => hf) h
  rw [← hcode]
  exact ⟨hsize, fun hquiet => ⟨p.marks, p.fits trivial hquiet⟩⟩

/-- Some variable is neither a parameter nor assigned by a loop, so it is written before it is
read. -/
theorem exists_settled {f : Typed.Function}
    (hf : f.Elaborates O w) (hraw : Typed.RawFree (Tree.Stmt.nodesOf w.body)) :
  ∃ x, f.settled x
  := by
  obtain ⟨x, hx⟩ := Infinite.exists_notMem_finset
    (f.params.map (·.name) ++ f.loopVariables).toFinset
  rw [List.mem_toFinset, List.mem_append, not_or] at hx
  exact ⟨x, hf.settled hraw hx.1 hx.2⟩

/-- In each function of a program without raw blocks that is accepted and lowered, and on every
way through its code, a variable other than a parameter is written before it is read, if no
`for` loop assigns it or the function reads it only where it is known to be assigned. -/
theorem accepted_writes_before_reads {program : Tree.Program} {m : Typed.Module}
    {ir : Ir.Module} (hraw : Typed.RawFree (Typed.nodesIn program))
    (h : (Typed.infer program).module = some m) (hlower : lower m = .ok ir) :
  ∀ g ∈ ir.functions, ∃ f ∈ m.functions, f.name = g.name ∧
    ∀ x ∉ g.params.map (·.name), x ∉ f.loopVariables ∨ f.settled x = true →
      ∀ (before : List Nat) (j : Nat) (i : Instr), Ir.Path g.body before j →
        g.body[j]? = some i → x ∈ i.reads → Ir.WrittenAt g.body x before
  := by
  have helaborates : ∀ f ∈ m.functions, ∃ w, f.Elaborates m.outside w ∧
      Typed.RawFree (Tree.Stmt.nodesOf w.body) := by
    intro f hf
    obtain ⟨hlength, hall⟩ := List.forall₂_iff_get.mp (Typed.infer_elaborates h)
    obtain ⟨k, hk, rfl⟩ := List.mem_iff_getElem.mp hf
    exact ⟨_, hall k (hlength ▸ hk) hk, fun e he => hraw e (Typed.mem_nodesIn (List.get_mem _ _) he)⟩
  obtain ⟨all, hlowered⟩ := exists_lowered hlower
  obtain ⟨-, -, hall⟩ := functions_each (·.2.size) (fun f hf _ _ _ hfunction => by
    obtain ⟨w, hfw, hfree⟩ := helaborates f hf
    obtain ⟨x, hx⟩ := exists_settled hfw hfree
    exact (function_fits hx hfunction).1) hlowered.functions
  intro g hg
  rw [hlowered.reached] at hg
  obtain ⟨f, hf, _, _, _, hfunction, hsize⟩ := hall g (List.mem_of_mem_filter hg)
  obtain ⟨w, hfw, hfree⟩ := helaborates f hf
  refine ⟨f, hf, (name_of_function hfunction).symm, ?_⟩
  intro x hparam hx before j i hpath hi hreads
  rw [params_of_function hfunction] at hparam
  have hsettled : f.settled x = true := hx.elim (hfw.settled hfree hparam) id
  obtain ⟨marks, hfits⟩ := (function_fits hsettled hfunction).2 (hsize.trans (Nat.zero_le _))
  exact hfits.written hpath hi hreads

/-- Adds and counts down, then adds items:
`def main(): n = 3; t = 0; while n and t < 9: n -= 1; if n: s = n * 2; t += s; else: t += 1;
end; end; for i in [1, 2]: t += i; end; return t; end;` -/
def adding : Tree.Program where
  main := (Tree.parse none (("def main(): n = 3; t = 0; while n and t < 9: n -= 1; " ++
    "if n: s = n * 2; t += s; else: t += 1; end; end; " ++
    "for i in [1, 2]: t += i; end; return t; end;").toList.map Text.byte)).unit
  libraries := []

theorem adding_writes_before_reads :
  Typed.RawFree (Typed.nodesIn adding) ∧ ∃ m ir, (Typed.infer adding).module = some m ∧
    lower m = .ok ir ∧ ∀ g ∈ ir.functions, ∃ f ∈ m.functions, f.name = g.name ∧
      ∀ x ∉ g.params.map (·.name), x ∉ f.loopVariables ∨ f.settled x = true →
        ∀ (before : List Nat) (j : Nat) (i : Instr), Ir.Path g.body before j →
          g.body[j]? = some i → x ∈ i.reads → Ir.WrittenAt g.body x before
  := by
  have hraw : Typed.RawFree (Typed.nodesIn adding) := by
    unfold Typed.RawFree
    decide +kernel
  have hlowered : ((Typed.infer adding).module.any fun m => (lower m).toOption.isSome) = true := by
    decide +kernel
  simp only [Option.any_eq_true, Option.isSome_iff_exists] at hlowered
  obtain ⟨m, hm, ir, hir⟩ := hlowered
  have hir := eq_ok_of_toOption hir
  exact ⟨hraw, m, ir, hm, hir, accepted_writes_before_reads hraw hm hir⟩

/-- Reads the variable of a loop that has no round:
`def main(): for i in range(0): pass; end; return i; end;` -/
def idle : Tree.Program where
  main := (Tree.parse none ("def main(): for i in range(0): pass; end; return i; end;".toList.map
    Text.byte)).unit
  libraries := []

/-- What the body of `idle` is lowered to. -/
def idleCode : List Instr :=
  [.move (.var "0") .i64 (.int 0), .move (.var "1") .i64 (.int 0), .label "L0",
    .binary (.var "2") .lt .i64 (.var "0") (.var "1"), .branch (.var "2") "L1" "L3", .label "L1",
    .move (.var "i") .i64 (.var "0"), .label "L2",
    .binary (.var "0") .add .i64 (.var "0") (.int 1), .jump "L0", .label "L3",
    .ret (some (.var "i"))]

/-- The program is accepted and lowered, but on the way past the loop its variable is read and
has not been written. -/
theorem idle_reads_unwritten :
  Typed.RawFree (Typed.nodesIn idle) ∧ ∃ m ir, (Typed.infer idle).module = some m ∧
    lower m = .ok ir ∧ ∃ g ∈ ir.functions, "i" ∉ g.params.map (·.name) ∧
      ∃ (before : List Nat) (j : Nat) (i : Instr), Ir.Path g.body before j ∧
        g.body[j]? = some i ∧ "i" ∈ i.reads ∧ ¬ Ir.WrittenAt g.body "i" before
  := by
  have hraw : Typed.RawFree (Typed.nodesIn idle) := by
    unfold Typed.RawFree
    decide +kernel
  have hlowered : ((Typed.infer idle).module.any fun m => (lower m).toOption.any fun ir =>
      ir.functions.any fun g => g.params = [] && g.body = idleCode) = true := by
    decide +kernel
  simp only [Option.any_eq_true, List.any_eq_true, Bool.and_eq_true, decide_eq_true_eq] at hlowered
  obtain ⟨m, hm, ir, hir, g, hg, hparams, hbody⟩ := hlowered
  refine ⟨hraw, m, ir, hm, eq_ok_of_toOption hir, g, hg, by simp [hparams], ?_⟩
  rw [hbody]
  have hleads : ∀ k j, (k, j) ∈ [(0, 1), (1, 2), (2, 3), (3, 4), (4, 10), (10, 11)] →
      Ir.Liveness.Leads idleCode k j := by
    simp only [List.mem_cons, Prod.mk.injEq, List.not_mem_nil, or_false]
    rintro k j (⟨rfl, rfl⟩ | ⟨rfl, rfl⟩ | ⟨rfl, rfl⟩ | ⟨rfl, rfl⟩ | ⟨rfl, rfl⟩ | ⟨rfl, rfl⟩)
    all_goals exact ⟨_, rfl, by decide⟩
  have hpath : Ir.Path idleCode [0, 1, 2, 3, 4, 10] 11 := by
    have h₁ := Ir.Path.start.step (hleads 0 1 (by decide))
    have h₃ := (h₁.step (hleads 1 2 (by decide))).step (hleads 2 3 (by decide))
    have h₅ := (h₃.step (hleads 3 4 (by decide))).step (hleads 4 10 (by decide))
    exact h₅.step (hleads 10 11 (by decide))
  refine ⟨_, 11, _, hpath, rfl, by decide, ?_⟩
  rintro ⟨k, hk, i, hi, hwrites⟩
  have hnone : ∀ k ∈ [0, 1, 2, 3, 4, 10], ∀ i ∈ idleCode[k]?, "i" ∉ i.writes := by decide
  exact hnone k hk i hi hwrites

end Endmark.Lowering
