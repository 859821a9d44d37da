import NonNative.Proofs.EveryRun
import NonNative.Script.Session

/-!
Circuits and actions. An action is given the log and could do anything with it; a
circuit can only add to it. Every operation is carried out as its circuit says, gate by
gate, so what is known of the runs of a circuit holds of what is carried out.
-/

namespace NonNative

namespace Circuit

variable {α β : Type}

/-- Carries out a circuit on the log of a system, with the honest answers. -/
def live : Circuit α → Live α
  | .done a => pure a
  | .refuse fault => throw fault
  | .record c rest => do
      Live.record c
      rest.live
  | .say message rest => do
      Live.tell message
      rest.live
  | .hint honest rest => (rest honest).live

theorem run_live (c : Circuit α) (s : Ledger) :
    c.live.run.run s = (c.run.result,
      ⟨s.recorded ++ c.run.constraints.toArray, s.said ++ c.run.messages.toArray⟩) := by
  induction c generalizing s with
  | done a =>
      simp only [run, Array.append_empty]
      rfl
  | refuse fault =>
      simp only [run, Array.append_empty]
      rfl
  | record k rest ih =>
      have hstep : (live (.record k rest)).run.run s =
          rest.live.run.run ⟨s.recorded.push k, s.said⟩ := rfl
      rw [hstep, ih]
      simp [run]
  | say message rest ih =>
      have hstep : (live (.say message rest)).run.run s =
          rest.live.run.run ⟨s.recorded, s.said.push message⟩ := rfl
      rw [hstep, ih]
      simp [run]
  | hint honest rest ih => exact ih honest s

theorem execute_live (c : Circuit α) (log : Log) :
    c.live.execute log = ⟨c.run.result, log ++ c.run.constraints, c.run.messages⟩ := by
  simp [Live.execute, run_live]

/-! ### Sequences -/

@[simp] theorem live_pure (a : α) : (pure a : Circuit α).live = pure a := rfl

theorem live_refuse_bind (fault : Fault) (f : α → Live β) :
    (refuse fault : Circuit α).live >>= f = throw fault := rfl

@[simp] theorem live_bind (c : Circuit α) (f : α → Circuit β) :
    (c >>= f).live = c.live >>= fun a => (f a).live := by
  rw [bind_eq]
  induction c with
  | done a => simp [live, Circuit.bind]
  | refuse fault => rfl
  | record k rest ih => simp only [Circuit.bind, live, ih, LawfulMonad.bind_assoc]
  | say message rest ih => simp only [Circuit.bind, live, ih, LawfulMonad.bind_assoc]
  | hint honest rest ih => exact ih honest

@[simp] theorem live_map (f : α → β) (c : Circuit α) : (f <$> c).live = f <$> c.live := by
  rw [map_eq_pure_bind, live_bind, map_eq_pure_bind]
  rfl

@[simp] theorem live_mapM (f : α → Circuit β) (l : List α) :
    (l.mapM f).live = l.mapM fun a => (f a).live := by
  induction l with
  | nil => simp
  | cons a l ih => simp [ih]

@[simp] theorem live_forM (f : α → Circuit PUnit) (l : List α) :
    (forM l f).live = forM l fun a => (f a).live := by
  induction l with
  | nil => simp
  | cons a l ih => simp [ih]

@[simp] theorem live_foldlM (f : β → α → Circuit β) (l : List α) (b : β) :
    (l.foldlM f b).live = l.foldlM (fun b a => (f b a).live) b := by
  induction l generalizing b with
  | nil => simp
  | cons a l ih => simp [ih]

@[simp] theorem live_ofExcept (x : Except Fault α) : (ofExcept x).live = Live.ofExcept x := by
  cases x <;> rfl

@[simp] theorem live_assert (k : Constraint) : (assert k).live = Live.record k := rfl

@[simp] theorem live_tell (message : Message) : (tell message).live = Live.tell message := rfl

@[simp] theorem live_ite (p : Prop) [Decidable p] (c d : Circuit α) :
    (if p then c else d).live = if p then c.live else d.live := apply_ite live p c d

end Circuit

namespace Quartic

variable {α β γ : Type}

@[simp] theorem live_mapM (f : α → Circuit β) (a : Quartic α) :
    (a.mapM f).live = a.mapM fun x => (f x).live := by
  simp [mapM]

@[simp] theorem live_zipWithM (f : α → β → Circuit γ) (a : Quartic α) (b : Quartic β) :
    (a.zipWithM f b).live = a.zipWithM (fun x y => (f x y).live) b := by
  simp [zipWithM]

end Quartic

/-! ### Gates -/

namespace NativeField

open Live

variable (F : NativeField) {α : Type}

@[simp] theorem live_accept (a : Operand) : (F.accept a).live = Native.constant F a := by
  cases a with
  | scalar s => exact Circuit.live_ite _ _ _
  | int n => rfl
  | truth b => rfl
  | text s =>
      change _ = Live.ofExcept (Literal.text s).value >>= fun n => pure (F.lift n)
      rw [accept]
      cases (Literal.text s).value <;> rfl

@[simp] theorem live_hint (n : ℤ) : (F.hint n).live = pure (F.lift n) := rfl

@[simp] theorem live_hints (ns : List ℕ) :
    (F.hints ns).live = pure (ns.map fun (n : ℕ) => F.lift n) := by
  simp [hints]

/-- What is taken is a value of the field, the same one if it is taken again. So two actions
are the same if they go on in the same way with such a value. -/
theorem constant_bind_congr (a : Operand) {f g : Scalar → Live α}
    (hfg : ∀ s, s.order = F.order → Native.constant F a = pure s → f s = g s) :
    Native.constant F a >>= f = Native.constant F a >>= g := by
  rcases F.accept_cases a with ⟨s, hs⟩ | ⟨fault, hfault⟩
  · have htaken : Native.constant F a = pure s := by
      rw [← live_accept, hs]
      rfl
    rw [htaken, pure_bind, pure_bind, hfg s (F.order_eq_of_accept hs) htaken]
  · rw [← live_accept, hfault, Circuit.live_refuse_bind, Circuit.live_refuse_bind]

theorem constant_scalar {s : Scalar} (hs : s.order = F.order) :
    Native.constant F (.scalar s) = pure s := if_pos hs

@[simp] theorem constant_lift (n : ℤ) :
    Native.constant F (.scalar (F.lift n)) = pure (F.lift n) := F.constant_scalar rfl

@[simp] theorem live_answer (a : Operand) : (F.answer a).live = Native.constant F a := by
  rw [answer, Circuit.live_bind, live_accept]
  refine (F.constant_bind_congr a fun s hs _ => ?_).trans (bind_pure _)
  rw [live_hint, F.lift_val_self hs]

@[simp] theorem live_add (a b : Operand) : (F.add a b).live = Native.add F a b := by
  simp [add, Native.add]

@[simp] theorem live_sub (a b : Operand) : (F.sub a b).live = Native.sub F a b := by
  simp [sub, Native.sub]

@[simp] theorem live_mul (a b : Operand) : (F.mul a b).live = Native.mul F a b := by
  simp [mul, Native.mul]

@[simp] theorem live_neg (a : Operand) : (F.neg a).live = Native.neg F a := by
  simp [neg, Native.neg]

@[simp] theorem live_select (cond a b : Operand) :
    (F.select cond a b).live = Native.select F cond a b := by
  simp [select, Native.select]

@[simp] theorem live_assertEqual (a b : Operand) (label : String) :
    (F.assertEqual a b label).live = Native.assertEqual F a b label := by
  simp [assertEqual, Native.assertEqual]

@[simp] theorem live_assertBoolean (a : Operand) (label : String) :
    (F.assertBoolean a label).live = Native.assertBoolean F a label := by
  simp [assertBoolean, Native.assertBoolean]

@[simp] theorem live_rangeCheck (a : Operand) (width : ℤ) (label : String) :
    (F.rangeCheck a width label).live = Native.rangeCheck F a width label := by
  simp [rangeCheck, Native.rangeCheck]

@[simp] theorem live_and (a b : Operand) : (F.and a b).live = Native.and F a b := by
  simp [and, Native.and]

@[simp] theorem live_isZero (a : Operand) : (F.isZero a).live = Native.isZero F a := by
  rw [isZero, Circuit.live_bind, live_accept]
  refine F.constant_bind_congr a fun s hs _ => ?_
  simp [Native.hint, F.constant_scalar hs]

theorem sum_shifted (values : List Scalar) (k sum : ℕ) :
    (values.zipIdx k).foldl (fun sum b => sum + b.1.val <<< b.2) sum =
      sum + ofDigits 1 (values.map (·.val)) <<< k := by
  induction values generalizing k sum with
  | nil => simp [ofDigits]
  | cons s values ih =>
      rw [List.zipIdx_cons, List.foldl_cons, ih, List.map_cons, ofDigits]
      simp only [Nat.shiftLeft_eq]
      ring

@[simp] theorem live_ofBits (bits : List Operand) :
    (F.ofBits bits).live = Native.ofBits F bits := by
  simp [ofBits, recompose, Native.ofBits, sum_shifted]

@[simp] theorem live_toBits (a : Operand) (width : ℤ) :
    (F.toBits a width).live = Native.toBits F a width := by
  rw [toBits, Circuit.live_bind, live_accept]
  refine F.constant_bind_congr a fun s hs _ => ?_
  simp [Native.hints, F.constant_scalar hs]

/-- Limbs are added up gate by gate. -/
theorem recomposeFrom_eq (w : ℕ) {limbs : List Scalar} (hlimbs : ∀ s ∈ limbs, s.order = F.order)
    (i : ℕ) (sum : ℤ) :
    Native.recomposeFrom F w i (F.lift sum) limbs =
      pure (F.lift (sum + (ofDigits w (limbs.map (·.val)) <<< (w * i) : ℕ))) := by
  induction limbs generalizing i sum with
  | nil => simp [Native.recomposeFrom, ofDigits]
  | cons s limbs ih =>
      obtain ⟨hs, hlimbs⟩ := List.forall_mem_cons.1 hlimbs
      have haccept : F.accept (.scalar s) = pure (F.lift s.val) := by
        rw [F.lift_val_self hs]
        exact if_pos hs
      have hmul := F.live_mul (.scalar s) (.int (1 <<< (w * i) : ℕ))
      rw [mul_eq haccept (F.accept_int _)] at hmul
      have hadd := F.live_add (.scalar (F.lift sum))
        (.scalar (F.lift (s.val * (1 <<< (w * i) : ℕ))))
      rw [add_eq (F.accept_lift _) (F.accept_lift _)] at hadd
      have hsum : sum + s.val * (1 <<< (w * i) : ℕ) +
            (ofDigits w (limbs.map (·.val)) <<< (w * (i + 1)) : ℕ) =
          sum + (ofDigits w ((s :: limbs).map (·.val)) <<< (w * i) : ℕ) := by
        simp only [List.map_cons, ofDigits, Nat.shiftLeft_eq, Nat.mul_succ, Nat.pow_add]
        push_cast
        ring
      simp only [Native.recomposeFrom, ← hmul, Circuit.live_pure, pure_bind, ← hadd, ih hlimbs, hsum]

theorem mapM_constant {ss : List Scalar} (hss : ∀ s ∈ ss, s.order = F.order) :
    (ss.map .scalar).mapM (Native.constant F) = pure ss := by
  induction ss with
  | nil => simp
  | cons s ss ih =>
      obtain ⟨hs, hss⟩ := List.forall_mem_cons.1 hss
      simp [F.constant_scalar hs, ih hss]

theorem live_recompose (w : ℕ) {limbs : List Scalar} (hlimbs : ∀ s ∈ limbs, s.order = F.order) :
    (F.recompose w (limbs.map .scalar)).live = Native.recompose F w limbs := by
  have hzero : Native.constant F (.int 0) = pure (F.lift 0) := rfl
  have hlive : (F.recompose w (limbs.map .scalar)).live =
      pure (F.lift (ofDigits w (limbs.map (·.val)))) := by
    rw [recompose, Circuit.live_bind, Circuit.live_mapM]
    simp only [live_accept]
    rw [F.mapM_constant hlimbs]
    rfl
  rw [hlive, Native.recompose, hzero, pure_bind, F.recomposeFrom_eq w hlimbs]
  simp

end NativeField

/-! ### Elements -/

namespace EmulatedField

open Live

variable (E : EmulatedField)

@[simp] theorem live_ofNative (a : Operand) : (E.ofNative a).live = Field.ofNative E a := by
  simp [ofNative, Field.ofNative]

@[simp] theorem live_canonical (r : Operand) (label : String) :
    (E.canonical r label).live = Field.canonical E r label := by
  simp only [canonical, Field.canonical, Native.hints, Circuit.live_bind, NativeField.live_accept,
    LawfulMonad.bind_assoc]
  refine E.native.constant_bind_congr r fun s _ _ => ?_
  have hlimbs : ∀ l ∈ (digits E.limbBits E.limbCount s.val).map
      fun (n : ℕ) => E.native.lift n, l.order = E.native.order :=
    List.forall_mem_map.2 fun _ _ => rfl
  simp [← E.native.live_recompose _ hlimbs]

@[simp] theorem live_witness (n : ℤ) : (E.witness n).live = Field.witness E n := by
  rw [witness, Circuit.live_bind, NativeField.live_hint]
  simp only [live_canonical]
  rfl

@[simp] theorem live_remainder (v : Operand) (bound : ℤ) (label : String) :
    (E.remainder v bound label).live = Field.remainder E v bound label := by
  simp only [remainder, Field.remainder, Native.hint, Circuit.live_bind, NativeField.live_accept,
    LawfulMonad.bind_assoc]
  refine E.native.constant_bind_congr v fun s _ hv => ?_
  simp [hv]

@[simp] theorem live_reduce (a : Element) : (E.reduce a).live = Field.reduce E a := by
  rw [reduce, Circuit.live_ite, live_remainder]
  rfl

@[simp] theorem live_withRoom (a : Element) : (E.withRoom a).live = Field.withRoom E a := by
  rw [withRoom, Circuit.live_ite, live_reduce]
  rfl

@[simp] theorem live_add (a b : Element) : (E.add a b).live = Field.add E a b := by
  simp [add, Field.add]

@[simp] theorem live_negated (a : Element) : (E.negated a).live = Field.negated E a := by
  simp [negated, Field.negated]

@[simp] theorem live_neg (a : Element) : (E.neg a).live = Field.neg E a := by
  simp [neg, Field.neg]

@[simp] theorem live_sub (a b : Element) : (E.sub a b).live = Field.sub E a b := by
  simp [sub, Field.sub]

@[simp] theorem live_mul (a b : Element) : (E.mul a b).live = Field.mul E a b := by
  simp [mul, Field.mul]

@[simp] theorem live_assertEqual (a b : Element) (label : String) :
    (E.assertEqual a b label).live = Field.assertEqual E a b label := by
  simp [assertEqual, Field.assertEqual]

@[simp] theorem live_inverse (a : Element) : (E.inverse a).live = Field.inverse E a := by
  simp [inverse, Field.inverse]

@[simp] theorem live_select (cond : Operand) (a b : Element) :
    (E.select cond a b).live = Field.select E cond a b := by
  simp [select, Field.select]

@[simp] theorem live_isZero (a : Element) : (E.isZero a).live = Field.isZero E a := by
  simp [isZero, Field.isZero]

@[simp] theorem live_toBits (a : Element) : (E.toBits a).live = Field.toBits E a := by
  simp [toBits, Field.toBits]

end EmulatedField

/-! ### Gadgets -/

namespace Chip

open Live

variable (C : Chip)

@[simp] theorem live_assertNotEqual (a b : Element) :
    (C.assertNotEqual a b).live = Gadget.assertNotEqual C a b := by
  simp [assertNotEqual, Gadget.assertNotEqual]

@[simp] theorem live_unpack (a : Operand) : (C.unpack a).live = Gadget.unpack C a := by
  simp [unpack, Gadget.unpack]

@[simp] theorem live_print (a : Element) : (print a).live = Gadget.print a := by
  simp [print, Gadget.print]

@[simp] theorem live_addExt (a b : ExtensionValue) : (C.addExt a b).live = Gadget.addExt C a b := by
  simp [addExt, Gadget.addExt]

@[simp] theorem live_subExt (a b : ExtensionValue) : (C.subExt a b).live = Gadget.subExt C a b := by
  simp [subExt, Gadget.subExt]

@[simp] theorem live_negExt (a : ExtensionValue) : (C.negExt a).live = Gadget.negExt C a := by
  simp [negExt, Gadget.negExt]

@[simp] theorem live_selectExt (cond : Operand) (a b : ExtensionValue) :
    (C.selectExt cond a b).live = Gadget.selectExt C cond a b := by
  simp [selectExt, Gadget.selectExt]

@[simp] theorem live_addMultiples (f : Element → Circuit Element) (cs ys : List Element) :
    (C.addMultiples f cs ys).live = Gadget.addMultiples C (fun y => (f y).live) cs ys := by
  induction cs generalizing ys with
  | nil => rfl
  | cons c cs ih =>
      cases ys with
      | nil => rfl
      | cons y ys => simp [addMultiples, Gadget.addMultiples, ih]

@[simp] theorem live_addProduct (acc xs ys : List Element) :
    (C.addProduct acc xs ys).live = Gadget.addProduct C acc xs ys := by
  induction xs generalizing acc with
  | nil =>
      rw [addProduct, Gadget.addProduct]
      rfl
  | cons x xs ih =>
      simp only [addProduct, Gadget.addProduct, Circuit.live_bind, live_addMultiples,
        EmulatedField.live_mul]
      refine congrArg _ (funext fun row => ?_)
      cases row with
      | nil => rfl
      | cons c rest => simp [ih]

@[simp] theorem live_mulExt (a b : ExtensionValue) : (C.mulExt a b).live = Gadget.mulExt C a b := by
  simp [mulExt, Gadget.mulExt]

@[simp] theorem live_assertEqualExt (a b : ExtensionValue) :
    (C.assertEqualExt a b).live = Gadget.assertEqualExt C a b := by
  simp [assertEqualExt, Gadget.assertEqualExt]

@[simp] theorem live_assertNotEqualExt (a b : ExtensionValue) :
    (C.assertNotEqualExt a b).live = Gadget.assertNotEqualExt C a b := by
  simp [assertNotEqualExt, Gadget.assertNotEqualExt]

@[simp] theorem live_invExt (a : ExtensionValue) : (C.invExt a).live = Gadget.invExt C a := by
  simp [invExt, Gadget.invExt]

@[simp] theorem live_divExt (a b : ExtensionValue) : (C.divExt a b).live = Gadget.divExt C a b := by
  simp [divExt, Gadget.divExt]

@[simp] theorem live_addBase (a : ExtensionValue) (b : Element) :
    (C.addBase a b).live = Gadget.addBase C a b := by
  simp [addBase, Gadget.addBase]

@[simp] theorem live_subBase (a : ExtensionValue) (b : Element) :
    (C.subBase a b).live = Gadget.subBase C a b := by
  simp [subBase, Gadget.subBase]

@[simp] theorem live_mulBase (a : ExtensionValue) (b : Element) :
    (C.mulBase a b).live = Gadget.mulBase C a b := by
  simp [mulBase, Gadget.mulBase]

@[simp] theorem live_divBase (a : ExtensionValue) (b : Element) :
    (C.divBase a b).live = Gadget.divBase C a b := by
  simp [divBase, Gadget.divBase]

@[simp] theorem live_printExt (a : ExtensionValue) : (printExt a).live = Gadget.printExt a := by
  simp [printExt, Gadget.printExt]

end Chip

/-! ### Calls -/

theorem Gate.live_circuit (F : NativeField) (op : Gate Operand) :
    (op.circuit F).live = op.live F := by
  cases op with
  | hint rule inputs =>
      simp only [circuit, live, Live.Native.integers, Circuit.live_bind, Circuit.live_mapM,
        NativeField.live_accept, Circuit.live_ofExcept, LawfulMonad.bind_assoc, pure_bind]
      refine congrArg _ (funext fun values => congrArg _ (funext fun answer => ?_))
      cases answer <;> simp
  | _ => simp [circuit, live]

theorem FieldOp.live_circuit (E : EmulatedField) (op : FieldOp Operand Element) :
    (op.circuit E).live = op.live E := by
  cases op <;> simp [circuit, live]

theorem ChipOp.live_circuit (C : Chip) (op : ChipOp Operand Element ExtensionValue) :
    (op.circuit C).live = op.live C := by
  cases op <;> simp [circuit, live]

namespace Live

variable {α β : Type}

theorem execute_log_bind (f : Log → Live α) (log : Log) :
    (Live.log >>= f).execute log = (f log).execute log := rfl

theorem execute_ofExcept (f : α → β) (x : Except Fault α) (log : Log) :
    (f <$> ofExcept x).execute log = ⟨x.map f, log, []⟩ := by
  cases x <;> rfl

end Live

/-- Only a check says something. -/
theorem Report.execute_live (r : Report) (log : Log) :
    r.live.execute log = ⟨(r.run log).result, log, (r.run log).messages⟩ := by
  cases r with
  | unsatisfied =>
      rw [live, Live.execute_log_bind, ← map_eq_pure_bind, Live.execute_ofExcept]
      rfl
  | isSatisfied =>
      rw [live, Live.execute_log_bind, Live.execute_ofExcept]
      rfl
  | check =>
      rw [live, Live.execute_log_bind, run, Log.checkNotices]
      cases log.check <;> rfl
  | numConstraints => rfl

/-- A call that is carried out on a log appends what it records to the log. -/
theorem Call.execute_live (S : Setting) (call : Call) (log : Log) :
    (call.live S).execute log = ⟨(call.run S log).result, log ++ (call.run S log).constraints,
      (call.run S log).messages⟩ := by
  cases call with
  | gate op => rw [live, ← Gate.live_circuit, Circuit.execute_live, run]
  | field op =>
      rw [live, run]
      cases S.field? with
      | some E => simp only [← FieldOp.live_circuit, Circuit.execute_live]
      | none =>
          simp only [List.append_nil]
          rfl
  | chip op =>
      rw [live, run]
      cases S.chip? with
      | some C => simp only [← ChipOp.live_circuit, Circuit.execute_live]
      | none =>
          simp only [List.append_nil]
          rfl
  | load l => rw [live, Live.execute_ofExcept, run, List.append_nil]
  | loadExtension ls => rw [live, Live.execute_ofExcept, run, List.append_nil]
  | give v =>
      rw [live, run, List.append_nil]
      rfl
  | report r =>
      rw [live, Report.execute_live, run]
      cases r <;> simp [Report.run]

end NonNative
