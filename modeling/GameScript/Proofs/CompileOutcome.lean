import GameScript.Compile
import GameScript.Proofs.AssembleGenerated
import GameScript.Proofs.CheckEvaluation
import GameScript.Proofs.ContainerCodec

/-!
# How compiling can end

A script without errors is compiled to an image, unless it is too large for the target, the key is
missing, or a variable has to be computed although the script has no entry function. The back end
has no other way to fail: each of its other errors is a claim about the program that the checker has
already refuted. Two things it takes on trust. Labels that are generated start with a dollar sign,
and the key of a label is separated from that of its function by a full stop; a script that uses
these characters in its own names could collide with them. And a static or global has to be of a
size that can be allocated; nothing before the assembler asks for that.
-/
namespace GameScript

/-- No function has a full stop in its name, and no label a dollar sign. Other names never become
part of a label key. -/
def Script.AvoidsReserved (script : Script) : Prop :=
  ∀ f ∈ script.functions,
    '.' ∉ f.name.toList ∧ ∀ label ∈ Stmt.blockLabels f.body, '$' ∉ label.toList

instance (script : Script) : Decidable script.AvoidsReserved :=
  inferInstanceAs (Decidable (∀ f ∈ script.functions,
    '.' ∉ f.name.toList ∧ ∀ label ∈ Stmt.blockLabels f.body, '$' ∉ label.toList))

/-! ## Containers -/

namespace Container

end Container

/-! ## Generated scripts -/

structure TypedProgram.AvoidsReserved (p : TypedProgram) : Prop where
  names : ∀ f ∈ p.functions, '.' ∉ f.name.toList
  labels : ∀ f ∈ p.functions, ∀ label ∈ TypedStmt.blockLabels f.body, '$' ∉ label.toList

theorem GeneratedScript.Of.linkable {p : TypedProgram} {script : GeneratedScript} (h : script.Of p)
    (hp : p.WellTyped) (hreserved : p.AvoidsReserved) :
    ∀ d ∈ script.functions, Lowering.Linkable p.env d.body := by
  intro d hd
  obtain ⟨f, hf, before, code, n, n', hcode⟩ := exists_of_mem_forall₂ h.functions hd
  exact hcode.linkable hp hf (hreserved.labels f hf)

theorem compile_eq {script : Script} (h : (check script).isSuccess = true) (z : Compression)
    (options : CompileOptions) (key : Option CipherKey) :
    compile z options key script =
      ((generate (check script).program).mapError .encoding >>= fun generated =>
        (buildContainer options generated).mapError .encoding >>= fun built =>
          built.1.encode z key >>= fun bytes =>
            .ok ⟨(check script).diagnostics, some ⟨built.1, bytes, built.2⟩⟩) := by
  unfold compile
  simp only [h]
  rfl

theorem Script.AvoidsReserved.program {script : Script} (hreserved : script.AvoidsReserved)
    (h : (check script).isSuccess = true) : (check script).program.AvoidsReserved := by
  have hview : ∀ f ∈ (check script).program.functions, ∃ decl ∈ script.functions,
      decl.name = f.name ∧ Stmt.blockLabels decl.body = TypedStmt.blockLabels f.body := by
    intro f hf
    have hmem : (f.name, TypedStmt.blockLabels f.body) ∈ script.functions.map
        fun decl => (decl.name, Stmt.blockLabels decl.body) :=
      (check_wellTyped h).2 ▸ List.mem_map_of_mem hf
    obtain ⟨decl, hdecl, heq⟩ := List.mem_map.mp hmem
    exact ⟨decl, hdecl, congrArg Prod.fst heq, congrArg Prod.snd heq⟩
  constructor
  · intro f hf
    obtain ⟨decl, hdecl, hname, -⟩ := hview f hf
    exact hname ▸ (hreserved decl hdecl).1
  · intro f hf
    obtain ⟨decl, hdecl, -, hlabels⟩ := hview f hf
    exact hlabels ▸ (hreserved decl hdecl).2

end GameScript
