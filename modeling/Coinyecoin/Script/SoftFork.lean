import Coinyecoin.Script.Interpreter

/-!
# Flags only restrict

A script that verifies under some flags verifies under fewer. Every use of a
flag in the interpreter guards a check, so a run under more flags that succeeds
is also a run under fewer, step by step with the same stacks. The two lock time
operations are the exception: without their flag they are no-ops, which another
flag discourages.
-/

namespace Coinyecoin

open Foundation SubsumesState

namespace Script

variable {mask : UInt32} {check₁ check₂ : Except Halt Unit} {scriptSig scriptPubKey : CScript}
  {stack stackCopy : Stack}

/-- The dependencies between flags that `VerifyScript` asserts. -/
structure FlagsConsistent (flags : UInt32) : Prop where
  witness : Flagged flags SCRIPT_VERIFY_WITNESS → Flagged flags SCRIPT_VERIFY_P2SH
  cleanStack : Flagged flags SCRIPT_VERIFY_CLEANSTACK →
    Flagged flags SCRIPT_VERIFY_P2SH ∧ Flagged flags SCRIPT_VERIFY_WITNESS

/-- `f₁` is a subset of `f₂`, and the two agree on the lock time operations if `f₁` discourages
no-ops. -/
structure Relaxes (f₁ f₂ : UInt32) : Prop where
  subset : f₁ &&& f₂ = f₁
  lockTime : Flagged f₁ SCRIPT_VERIFY_DISCOURAGE_UPGRADABLE_NOPS →
    (Flagged f₁ SCRIPT_VERIFY_CHECKLOCKTIMEVERIFY ↔ Flagged f₂ SCRIPT_VERIFY_CHECKLOCKTIMEVERIFY)
  sequence : Flagged f₁ SCRIPT_VERIFY_DISCOURAGE_UPGRADABLE_NOPS →
    (Flagged f₁ SCRIPT_VERIFY_CHECKSEQUENCEVERIFY ↔ Flagged f₂ SCRIPT_VERIFY_CHECKSEQUENCEVERIFY)

theorem Flagged.mono {f₁ f₂ mask : UInt32} (hsub : f₁ &&& f₂ = f₁) (h : Flagged f₁ mask) :
    Flagged f₂ mask := by
  intro hzero
  apply h
  rw [← hsub, UInt32.and_assoc, hzero, UInt32.and_zero]

section

variable {f₁ f₂ : UInt32}

theorem subsumes_unit {ε : Type} {check : Except ε Unit} : Subsumes (.ok ()) check :=
  fun _ _ => rfl

theorem subsumes_withFlag_of (hsub : f₁ &&& f₂ = f₁)
    (h : Flagged f₁ mask → Subsumes check₁ check₂) :
    Subsumes (withFlag f₁ mask check₁) (withFlag f₂ mask check₂) := by
  unfold withFlag
  by_cases h₁ : Flagged f₁ mask
  · rw [if_pos h₁, if_pos (Flagged.mono hsub h₁)]
    exact h h₁
  · rw [if_neg h₁]
    exact subsumes_unit

theorem subsumes_withFlag (hsub : f₁ &&& f₂ = f₁) {mask : UInt32} {check : Except Halt Unit} :
    Subsumes (withFlag f₁ mask check) (withFlag f₂ mask check) :=
  subsumes_withFlag_of hsub fun _ => .refl _

variable (hsub : f₁ &&& f₂ = f₁)

include hsub

variable (crypto : Crypto) (sigversion : SigVersion)

theorem subsumes_checkSignatureEncoding (vchSig : Bytes) :
    Subsumes (checkSignatureEncoding crypto f₁ vchSig) (checkSignatureEncoding crypto f₂ vchSig) :=
  .ite (.refl _) <| .bind (subsumes_withFlag hsub) fun _ =>
    .bind (subsumes_withFlag hsub) fun _ => subsumes_withFlag hsub

theorem subsumes_checkPubKeyEncoding (vchPubKey : Bytes) :
    Subsumes (checkPubKeyEncoding f₁ sigversion vchPubKey)
      (checkPubKeyEncoding f₂ sigversion vchPubKey) :=
  .bind (subsumes_withFlag hsub) fun _ => subsumes_withFlag hsub

theorem subsumes_checkEncodings (vchSig vchPubKey : Bytes) :
    Subsumes (checkEncodings crypto f₁ sigversion vchSig vchPubKey)
      (checkEncodings crypto f₂ sigversion vchSig vchPubKey) :=
  .bind (subsumes_checkSignatureEncoding hsub crypto vchSig) fun _ =>
    subsumes_checkPubKeyEncoding hsub sigversion vchPubKey

theorem subsumes_scriptNum (vch : Bytes) (nMaxNumSize : ℕ) :
    Subsumes (scriptNum f₁ vch nMaxNumSize) (scriptNum f₂ vch nMaxNumSize) := by
  intro n hn
  unfold scriptNum CScriptNum.ofVch at *
  by_cases hsize : vch.length > nMaxNumSize
  · rw [if_pos hsize] at hn
    cases hn
  rw [if_neg hsize] at hn ⊢
  by_cases hminimal : CScriptNum.isMinimal vch = true
  · simpa [hminimal] using hn
  · have h₂ : ¬ Flagged f₂ SCRIPT_VERIFY_MINIMALDATA := by
      intro h₂
      simp [h₂, hminimal, orFault, Except.mapError] at hn
    have h₁ : ¬ Flagged f₁ SCRIPT_VERIFY_MINIMALDATA := fun h₁ => h₂ (Flagged.mono hsub h₁)
    simpa [h₁, h₂] using hn

end

section

variable {f₁ f₂ : UInt32} (hsub : f₁ &&& f₂ = f₁)

include hsub

theorem subsumes_execUnary (op : UnaryOp) (st : EvalState) :
    Subsumes (execUnary f₁ op st) (execUnary f₂ op st) :=
  .bind (.refl _) fun _ => .bind (.refl _) fun vch =>
    .bind (subsumes_scriptNum hsub vch _) fun _ => .refl _

theorem subsumes_execBinary (op : BinaryOp) (st : EvalState) :
    Subsumes (execBinary f₁ op st) (execBinary f₂ op st) :=
  .bind (.refl _) fun _ => .bind (.refl _) fun vch1 =>
    .bind (subsumes_scriptNum hsub vch1 _) fun _ => .bind (.refl _) fun vch2 =>
      .bind (subsumes_scriptNum hsub vch2 _) fun _ => .refl _

variable (st : EvalState) (checker : BaseSignatureChecker)

theorem subsumes_execWithin : Subsumes (execWithin f₁ st) (execWithin f₂ st) :=
  .bind (.refl _) fun _ => .bind (.refl _) fun vch1 =>
    .bind (subsumes_scriptNum hsub vch1 _) fun _ => .bind (.refl _) fun vch2 =>
      .bind (subsumes_scriptNum hsub vch2 _) fun _ => .bind (.refl _) fun vch3 =>
        .bind (subsumes_scriptNum hsub vch3 _) fun _ => .refl _

theorem subsumes_execPick (roll : Bool) (st : EvalState) :
    Subsumes (execPick f₁ roll st) (execPick f₂ roll st) :=
  .bind (.refl _) fun _ => .bind (.refl _) fun vch =>
    .bind (subsumes_scriptNum hsub vch _) fun _ => .refl _

theorem subsumes_execUpgradableNop : Subsumes (execUpgradableNop f₁ st) (execUpgradableNop f₂ st) :=
  .bind (subsumes_withFlag hsub) fun _ => .refl _

theorem subsumes_lockTimeOperand : Subsumes (lockTimeOperand f₁ st) (lockTimeOperand f₂ st) :=
  .bind (.refl _) fun _ => .bind (.refl _) fun vch =>
    .bind (subsumes_scriptNum hsub vch _) fun _ => .refl _

theorem subsumes_checkLockTimeVerify (st : EvalState) :
    Subsumes (checkLockTimeVerify f₁ checker st) (checkLockTimeVerify f₂ checker st) :=
  .bind (subsumes_lockTimeOperand hsub st) fun _ => .refl _

theorem subsumes_checkSequenceVerify (st : EvalState) :
    Subsumes (checkSequenceVerify f₁ checker st) (checkSequenceVerify f₂ checker st) :=
  .bind (subsumes_lockTimeOperand hsub st) fun _ => .refl _

theorem subsumes_execFormerNop (hcheck : Subsumes check₁ check₂)
    (hagree : Flagged f₁ SCRIPT_VERIFY_DISCOURAGE_UPGRADABLE_NOPS →
      (Flagged f₁ mask ↔ Flagged f₂ mask)) (st : EvalState) :
    Subsumes (execFormerNop f₁ mask check₁ st) (execFormerNop f₂ mask check₂ st) := by
  unfold execFormerNop
  by_cases h₁ : Flagged f₁ mask
  · rw [if_pos h₁, if_pos (Flagged.mono hsub h₁)]
    exact .bind hcheck fun _ => .refl _
  rw [if_neg h₁]
  by_cases h₂ : Flagged f₂ mask
  · rw [if_pos h₂]
    have hnop : ¬ Flagged f₁ SCRIPT_VERIFY_DISCOURAGE_UPGRADABLE_NOPS :=
      fun hnop => h₁ ((hagree hnop).2 h₂)
    have hpass : execUpgradableNop f₁ st = .ok st := by
      rw [execUpgradableNop, withFlag, if_neg hnop, ok_bind]
    rw [hpass]
    exact .skip (.refl _)
  · rw [if_neg h₂]
    exact subsumes_execUpgradableNop hsub st

theorem subsumes_execIf (sigversion : SigVersion) (negated fExec : Bool) (st : EvalState) :
    Subsumes (execIf f₁ sigversion negated fExec st) (execIf f₂ sigversion negated fExec st) :=
  .ite (.bind (.refl _) fun _ => .bind (.refl _) fun _ =>
    .bind (subsumes_withFlag hsub) fun _ => .refl _) (.refl _)

theorem subsumes_execPush (opcode : UInt8) (vchPushValue : Bytes) (st : EvalState) :
    Subsumes (execPush f₁ opcode vchPushValue st) (execPush f₂ opcode vchPushValue st) :=
  .bind (subsumes_withFlag hsub) fun _ => .refl _

theorem subsumes_execCheckSig (crypto : Crypto) (checker : BaseSignatureChecker)
    (sigversion : SigVersion) (verify : Bool) (st : EvalState) :
    SubsumesState (execCheckSig crypto f₁ checker sigversion verify st)
      (execCheckSig crypto f₂ checker sigversion verify st) :=
  .bind (.refl _) fun _ => .bind (.refl _) fun vchSig => .bind (.refl _) fun vchPubKey =>
    .bind (.lift (subsumes_checkEncodings hsub crypto sigversion vchSig vchPubKey)) fun _ =>
      .bind (.refl _) fun _ => .bind (.lift (subsumes_withFlag hsub)) fun _ => .refl _

theorem subsumes_matchSigs (crypto : Crypto) (checker : BaseSignatureChecker)
    (sigversion : SigVersion) (stack : Stack) (scriptCode : CScript)
    (nKeysCount nSigsCount ikey isig : ℕ) :
    SubsumesState
      (matchSigs crypto f₁ checker sigversion stack scriptCode nKeysCount nSigsCount ikey isig)
      (matchSigs crypto f₂ checker sigversion stack scriptCode nKeysCount nSigsCount ikey isig) := by
  induction nKeysCount generalizing nSigsCount ikey isig with
  | zero =>
    cases nSigsCount with
    | zero => exact .refl _
    | succ nSigsCount => exact .refl _
  | succ nKeysCount ih =>
    cases nSigsCount with
    | zero => exact .refl _
    | succ nSigsCount =>
      exact .bind (.refl _) fun vchSig => .bind (.refl _) fun vchPubKey =>
        .bind (.lift (subsumes_checkEncodings hsub crypto sigversion vchSig vchPubKey)) fun _ =>
          .bind (.refl _) fun _ => .ite (ih _ _ _) (.ite (.refl _) (ih _ _ _))

theorem subsumes_cleanUp (fSuccess : Bool) (n ikey2 : ℕ) (stack : Stack) :
    Subsumes (cleanUp f₁ fSuccess n ikey2 stack) (cleanUp f₂ fSuccess n ikey2 stack) := by
  induction n generalizing ikey2 stack with
  | zero => exact .refl _
  | succ n ih =>
    exact .bind (.ite (subsumes_withFlag hsub) (.refl _)) fun _ =>
      .bind (.refl _) fun _ => ih _ _

theorem subsumes_multiSigCounts : Subsumes (multiSigCounts f₁ st) (multiSigCounts f₂ st) :=
  .bind (.refl _) fun _ => .bind (.refl _) fun vch => .bind (subsumes_scriptNum hsub vch _) fun _ =>
    .bind (.refl _) fun _ => .bind (.refl _) fun _ => .bind (.refl _) fun _ =>
      .bind (.refl _) fun vch => .bind (subsumes_scriptNum hsub vch _) fun _ => .refl _

theorem subsumes_execCheckMultiSig (crypto : Crypto) (checker : BaseSignatureChecker)
    (sigversion : SigVersion) (verify : Bool) (st : EvalState) :
    SubsumesState (execCheckMultiSig crypto f₁ checker sigversion verify st)
      (execCheckMultiSig crypto f₂ checker sigversion verify st) :=
  .bind (.lift (subsumes_multiSigCounts hsub st)) fun _ => .bind (.refl _) fun _ =>
    .bind (subsumes_matchSigs hsub crypto checker sigversion _ _ _ _ _ _) fun _ =>
      .bind (.lift (subsumes_cleanUp hsub _ _ _ _)) fun _ => .bind (.refl _) fun _ =>
        .bind (.refl _) fun _ => .bind (.lift (subsumes_withFlag hsub)) fun _ => .refl _

end

section

variable {f₁ f₂ : UInt32} (h : Relaxes f₁ f₂) (crypto : Crypto) (checker : BaseSignatureChecker)
  (sigversion : SigVersion)

include h

theorem subsumes_execOp (fExec : Bool) (pc : CScript) (st : EvalState) (op : opcodetype) :
    SubsumesState (execOp crypto f₁ checker sigversion fExec pc st op)
      (execOp crypto f₂ checker sigversion fExec pc st op) := by
  cases op with
  | OP_CHECKLOCKTIMEVERIFY =>
    exact .lift (subsumes_execFormerNop h.subset
      (subsumes_checkLockTimeVerify h.subset checker st) h.lockTime st)
  | OP_CHECKSEQUENCEVERIFY =>
    exact .lift (subsumes_execFormerNop h.subset
      (subsumes_checkSequenceVerify h.subset checker st) h.sequence st)
  | upgradableNop => exact .lift (subsumes_execUpgradableNop h.subset st)
  | OP_IF => exact .lift (subsumes_execIf h.subset sigversion false fExec st)
  | OP_NOTIF => exact .lift (subsumes_execIf h.subset sigversion true fExec st)
  | OP_PICK => exact .lift (subsumes_execPick h.subset false st)
  | OP_ROLL => exact .lift (subsumes_execPick h.subset true st)
  | unary op => exact .lift (subsumes_execUnary h.subset op st)
  | binary op => exact .lift (subsumes_execBinary h.subset op st)
  | OP_WITHIN => exact .lift (subsumes_execWithin h.subset st)
  | checkSig verify => exact subsumes_execCheckSig h.subset crypto checker sigversion verify st
  | checkMultiSig verify =>
    exact subsumes_execCheckMultiSig h.subset crypto checker sigversion verify st
  -- the other operations do not read the flags
  | _ => exact .refl _

variable (opcode : UInt8) (vchPushValue : Bytes) (pc : CScript)

theorem subsumes_dispatch (st : EvalState) :
    SubsumesState (dispatch crypto f₁ checker sigversion opcode vchPushValue pc st)
      (dispatch crypto f₂ checker sigversion opcode vchPushValue pc st) :=
  .ite (.lift (subsumes_execPush h.subset _ _ _))
    (.ite (subsumes_execOp h crypto checker sigversion _ _ _ _) (.refl _))

theorem subsumes_evalOp (st : EvalState) :
    SubsumesState (evalOp crypto f₁ checker sigversion opcode vchPushValue pc st)
      (evalOp crypto f₂ checker sigversion opcode vchPushValue pc st) :=
  .bind (.refl _) fun _ =>
    .bind (subsumes_dispatch h crypto checker sigversion _ _ _ _) fun _ => .refl _

theorem subsumes_evalLoop (fuel : ℕ) (pc : CScript) (st : EvalState) :
    SubsumesState (evalLoop crypto f₁ checker sigversion fuel pc st)
      (evalLoop crypto f₂ checker sigversion fuel pc st) := by
  induction fuel generalizing pc st with
  | zero => exact .refl _
  | succ fuel ih =>
    refine .ite (.refl _) ?_
    cases CScript.getOpValue pc with
    | none => exact .refl _
    | some read =>
      exact .bind (subsumes_evalOp h crypto checker sigversion _ _ _ _) fun _ => ih _ _

theorem subsumes_evalScript (stack : Stack) (script : CScript) :
    SubsumesState (evalScript crypto f₁ checker sigversion stack script)
      (evalScript crypto f₂ checker sigversion stack script) :=
  .bind (.refl _) fun _ =>
    .bind (.adapt caught (subsumes_evalLoop h crypto checker sigversion _ _ _)) fun _ => .refl _

end

section

variable {f₁ f₂ : UInt32} (h : Relaxes f₁ f₂) (crypto : Crypto) (checker : BaseSignatureChecker)

include h

theorem subsumes_verifyWitnessProgram (witness : List Bytes) (witversion : ℕ) (program : Bytes) :
    SubsumesState (verifyWitnessProgram crypto f₁ checker witness witversion program)
      (verifyWitnessProgram crypto f₂ checker witness witversion program) :=
  .ite (.bind (.refl _) fun _ => .bind (.refl _) fun _ =>
      .bind (subsumes_evalScript h crypto checker _ _ _) fun _ => .refl _)
    (.lift (subsumes_withFlag h.subset))

theorem subsumes_verifyWitness (hwitness : Flagged f₁ SCRIPT_VERIFY_WITNESS) (script : CScript)
    (witness : List Bytes) (malleated : Bool) (serror : ScriptError) (stack : Stack) :
    SubsumesState (verifyWitness crypto f₁ checker script witness malleated serror stack)
      (verifyWitness crypto f₂ checker script witness malleated serror stack) := by
  rw [verifyWitness, verifyWitness, if_pos hwitness, if_pos (Flagged.mono h.subset hwitness)]
  cases script.isWitnessProgram with
  | none => exact .refl _
  | some program =>
    exact .bind (.refl _) fun _ =>
      .bind (subsumes_verifyWitnessProgram h crypto checker _ _ _) fun _ => .refl _

theorem subsumes_verifyScriptHash (hwitness : Flagged f₁ SCRIPT_VERIFY_WITNESS)
    (scriptSig : CScript) (witness : List Bytes) (stack : Stack) :
    SubsumesState (verifyScriptHash crypto f₁ checker scriptSig witness stack)
      (verifyScriptHash crypto f₂ checker scriptSig witness stack) :=
  .bind (.refl _) fun _ => .bind (.refl _) fun _ => .bind (.refl _) fun pubKey2 =>
    .bind (.refl _) fun _ => .bind (subsumes_evalScript h crypto checker _ _ _) fun _ =>
      .bind (.refl _) fun _ => subsumes_verifyWitness h crypto checker hwitness pubKey2 _ _ _ _

theorem subsumes_verifyIfScriptHash (hconsistent : FlagsConsistent f₁)
    (hwitness : Flagged f₁ SCRIPT_VERIFY_WITNESS) (scriptSig scriptPubKey : CScript)
    (witness : List Bytes) (stackCopy stack : Stack) :
    SubsumesState (verifyIfScriptHash crypto f₁ checker scriptSig scriptPubKey witness stackCopy stack)
      (verifyIfScriptHash crypto f₂ checker scriptSig scriptPubKey witness stackCopy stack) := by
  have h₁ := hconsistent.witness hwitness
  have h₂ := Flagged.mono h.subset h₁
  simp only [verifyIfScriptHash, h₁, h₂, true_and]
  exact .ite (subsumes_verifyScriptHash h crypto checker hwitness _ _ _) (.refl _)

omit h in
theorem subsumes_assert (hmask : Flagged f₁ mask) {expr : String} :
    Subsumes (orFault (assertThat (Flagged f₁ mask) expr))
      (orFault (assertThat (Flagged f₂ mask) expr)) := by
  rw [assertThat_of_true hmask]
  exact subsumes_unit

theorem subsumes_finishVerify (hconsistent : FlagsConsistent f₁) (hadWitness : Bool)
    (witness : List Bytes) (stack : Stack) :
    Subsumes (finishVerify f₁ hadWitness witness stack)
      (finishVerify f₂ hadWitness witness stack) := by
  refine .bind (subsumes_withFlag_of h.subset ?_) fun _ => subsumes_withFlag_of h.subset ?_
  · intro hclean
    obtain ⟨hscriptHash, hwitness⟩ := hconsistent.cleanStack hclean
    exact .bind (subsumes_assert hscriptHash) fun _ =>
      .bind (subsumes_assert hwitness) fun _ => .refl _
  · intro hwitness
    exact .bind (subsumes_assert (hconsistent.witness hwitness)) fun _ => .refl _

end

section

variable {f₁ f₂ : UInt32} (crypto : Crypto) (checker : BaseSignatureChecker)

theorem verifyWitness_of_not_flagged (hwitness : ¬ Flagged f₁ SCRIPT_VERIFY_WITNESS)
    (script : CScript) (witness : List Bytes) (malleated : Bool) (serror : ScriptError)
    (stack : Stack) :
    verifyWitness crypto f₁ checker script witness malleated serror stack = pure (false, stack) :=
  if_neg hwitness

theorem finishVerify_of_not_flagged (hconsistent : FlagsConsistent f₁)
    (hwitness : ¬ Flagged f₁ SCRIPT_VERIFY_WITNESS) (hadWitness : Bool) (witness : List Bytes)
    (stack : Stack) : finishVerify f₁ hadWitness witness stack = .ok () := by
  have hclean : ¬ Flagged f₁ SCRIPT_VERIFY_CLEANSTACK :=
    fun hclean => hwitness (hconsistent.cleanStack hclean).2
  rw [finishVerify, withFlag, withFlag, if_neg hclean, if_neg hwitness, ok_bind]

variable {script : CScript} {witness : List Bytes} {s : ℕ}

theorem isWitnessProgram_of_isPayToScriptHash
    (hscript : script.isPayToScriptHash = true) : script.isWitnessProgram = none := by
  simp only [CScript.isPayToScriptHash, decide_eq_true_eq] at hscript
  obtain ⟨-, hfirst, -⟩ := hscript
  cases script with
  | nil => rfl
  | cons version rest =>
    obtain rfl : version = 0xa9 := Option.some.inj hfirst
    cases rest with
    | nil => rfl
    | cons size program => simp [CScript.isWitnessProgram, CScript.OP_1, CScript.OP_16]

theorem verifyWitness_of_isPayToScriptHash
    (hscript : script.isPayToScriptHash = true) (witness : List Bytes) (malleated : Bool)
    (serror : ScriptError) (stack : Stack) :
    verifyWitness crypto f₂ checker script witness malleated serror stack = pure (false, stack) := by
  rw [verifyWitness, isWitnessProgram_of_isPayToScriptHash hscript, ite_self]

section

variable (h : Relaxes f₁ f₂) (hwitness : ¬ Flagged f₁ SCRIPT_VERIFY_WITNESS)
include h hwitness

theorem succeeds_verifyScriptHash
    (hrun : Succeeds (verifyScriptHash crypto f₂ checker scriptSig witness stack) s) :
    Succeeds (verifyScriptHash crypto f₁ checker scriptSig witness stack) s := by
  refine succeeds_bind (.refl _) (fun _ _ => ?_) hrun
  refine succeeds_bind (.refl _) fun _ _ => ?_
  refine succeeds_bind (.refl _) fun pubKey2 _ => ?_
  refine succeeds_bind (.refl _) fun _ _ => ?_
  refine succeeds_bind (subsumes_evalScript h crypto checker _ _ _) fun stack s' => ?_
  refine succeeds_bind (.refl _) fun _ s' _ => ?_
  rw [verifyWitness_of_not_flagged crypto checker hwitness]
  exact succeeds_pure _ s'

theorem succeeds_verifyIfScriptHash {malleated : Bool} {serror : ScriptError} (hrun : Succeeds (do
      let bare ← verifyWitness crypto f₂ checker scriptPubKey witness malleated serror stack
      verifyIfScriptHash crypto f₂ checker scriptSig scriptPubKey witness stackCopy bare.2) s) :
    Succeeds
      (verifyIfScriptHash crypto f₁ checker scriptSig scriptPubKey witness stackCopy stack) s := by
  unfold verifyIfScriptHash at *
  split_ifs with hhash
  · rw [verifyWitness_of_isPayToScriptHash crypto checker hhash.2, pure_bind,
      if_pos ⟨Flagged.mono h.subset hhash.1, hhash.2⟩] at hrun
    exact succeeds_verifyScriptHash crypto checker h hwitness hrun
  · exact succeeds_pure _ s

end

end

section

variable {f₁ f₂ : UInt32} (h : Relaxes f₁ f₂) (hconsistent : FlagsConsistent f₁) {crypto : Crypto}
  {checker : BaseSignatureChecker}

include h hconsistent

theorem succeeds_verifyPrograms {witness : List Bytes} {s : ℕ} (hrun : Succeeds
      (verifyPrograms crypto f₂ checker scriptSig scriptPubKey witness stackCopy stack) s) :
    Succeeds (verifyPrograms crypto f₁ checker scriptSig scriptPubKey witness stackCopy stack) s := by
  by_cases hwitness : Flagged f₁ SCRIPT_VERIFY_WITNESS
  · refine succeeds ?_ hrun
    exact .bind (subsumes_verifyWitness h crypto checker hwitness _ _ _ _ _) fun _ =>
      .bind (subsumes_verifyIfScriptHash h crypto checker hconsistent hwitness _ _ _ _ _) fun _ =>
        .lift (subsumes_finishVerify h hconsistent _ _ _)
  · obtain ⟨bare, s₁, hbare, hrun⟩ := succeeds_bind.1 hrun
    obtain ⟨last, s₂, hlast, -⟩ := succeeds_bind.1 hrun
    obtain ⟨last', s', hrun'⟩ := succeeds_verifyIfScriptHash crypto checker h hwitness
      (succeeds_bind.2 ⟨bare, s₁, hbare, last, s₂, hlast⟩)
    rw [verifyPrograms, verifyWitness_of_not_flagged crypto checker hwitness, pure_bind]
    refine succeeds_bind.2 ⟨last', s', hrun', succeeds_lift.2 ⟨(), ?_⟩⟩
    exact finishVerify_of_not_flagged hconsistent hwitness _ _ _

theorem succeeds_verifyScript {witness : List Bytes} {s : ℕ}
    (hrun : Succeeds (verifyScript crypto f₂ checker scriptSig scriptPubKey witness) s) :
    Succeeds (verifyScript crypto f₁ checker scriptSig scriptPubKey witness) s := by
  refine succeeds_bind (.lift (subsumes_withFlag h.subset)) (fun _ _ => ?_) hrun
  refine succeeds_bind (subsumes_evalScript h crypto checker _ _ _) fun _ _ => ?_
  refine succeeds_bind (subsumes_evalScript h crypto checker _ _ _) fun _ _ => ?_
  exact succeeds_bind (.refl _) fun _ _ => succeeds_verifyPrograms h hconsistent

omit h hconsistent in
theorem verifies_iff_succeeds {flags : UInt32} {witness : List Bytes} :
    Verifies crypto flags checker scriptSig scriptPubKey witness ↔
      Succeeds (verifyScript crypto flags checker scriptSig scriptPubKey witness) 0 := by
  constructor
  · intro hverifies
    exact ⟨(), _, Prod.ext hverifies rfl⟩
  · rintro ⟨a, s', hrun⟩
    exact congrArg Prod.fst hrun

theorem Verifies.relax {witness : List Bytes}
    (hverifies : Verifies crypto f₂ checker scriptSig scriptPubKey witness) :
    Verifies crypto f₁ checker scriptSig scriptPubKey witness :=
  verifies_iff_succeeds.2 (succeeds_verifyScript h hconsistent (verifies_iff_succeeds.1 hverifies))

end

section

variable (fDerSig fLockTime fSequence fWitness : Bool)

theorem blockScriptFlags_relaxes :
    Relaxes (blockScriptFlags fDerSig fLockTime fSequence fWitness)
      STANDARD_SCRIPT_VERIFY_FLAGS := by
  have hnops : ¬ Flagged (blockScriptFlags fDerSig fLockTime fSequence fWitness)
      SCRIPT_VERIFY_DISCOURAGE_UPGRADABLE_NOPS := by
    revert fDerSig fLockTime fSequence fWitness
    decide
  refine ⟨?_, fun hflag => absurd hflag hnops, fun hflag => absurd hflag hnops⟩
  revert fDerSig fLockTime fSequence fWitness
  decide

theorem blockScriptFlags_consistent :
    FlagsConsistent (blockScriptFlags fDerSig fLockTime fSequence fWitness) := by
  constructor
  · revert fDerSig fLockTime fSequence fWitness
    decide
  · revert fDerSig fLockTime fSequence fWitness
    decide

/-- Flags only restrict, so what passes the standard checks of the memory pool passes those of any
block. -/
theorem flags_only_restrict (crypto : Crypto) :
    (∀ (checker : BaseSignatureChecker) (scriptSig scriptPubKey : CScript) (witness : List Bytes)
      (f₁ f₂ : UInt32), FlagsConsistent f₁ → FlagsConsistent f₂ → Relaxes f₁ f₂ →
      Verifies crypto f₂ checker scriptSig scriptPubKey witness →
      Verifies crypto f₁ checker scriptSig scriptPubKey witness) ∧
    ∀ (inputs : List CScriptCheck) (fDerSig fLockTime fSequence fWitness : Bool),
      InputsVerify crypto STANDARD_SCRIPT_VERIFY_FLAGS inputs →
      InputsVerify crypto (blockScriptFlags fDerSig fLockTime fSequence fWitness) inputs := by
  constructor
  · intro checker scriptSig scriptPubKey witness f₁ f₂ hconsistent _ h hverifies
    exact hverifies.relax h hconsistent
  · intro inputs fDerSig fLockTime fSequence fWitness hinputs check hcheck
    exact (hinputs check hcheck).relax (blockScriptFlags_relaxes _ _ _ _)
      (blockScriptFlags_consistent _ _ _ _)

def zeroHashes : Crypto where
  hash := fun op _ => List.replicate
    (if op = .OP_RIPEMD160 ∨ op = .OP_SHA1 ∨ op = .OP_HASH160 then 20 else 32) 0
  length_hash := fun _ _ => List.length_replicate
  checkLowS := fun _ => true

def permissiveChecker : BaseSignatureChecker where
  checkSig := fun _ _ _ _ => true
  checkLockTime := fun _ => true
  checkSequence := fun _ => true

/-- `OP_1 OP_CHECKLOCKTIMEVERIFY`, locked at a height that has passed. -/
def lockedScript : CScript := [0x51, 0xb1]

/-- The lock is checked by the memory pool and passed over by a block before the rule. -/
theorem flags_only_restrict_lockedScript :
    Verifies zeroHashes STANDARD_SCRIPT_VERIFY_FLAGS permissiveChecker [] lockedScript [] ∧
    Verifies zeroHashes SCRIPT_VERIFY_P2SH permissiveChecker [] lockedScript [] ∧
    InputsVerify zeroHashes (blockScriptFlags true false false true)
      [⟨[], lockedScript, [], permissiveChecker⟩] := by
  have hstandard :
      Verifies zeroHashes STANDARD_SCRIPT_VERIFY_FLAGS permissiveChecker [] lockedScript [] := rfl
  refine ⟨hstandard, ?_, ?_⟩
  · refine (flags_only_restrict zeroHashes).1 permissiveChecker [] lockedScript []
      SCRIPT_VERIFY_P2SH STANDARD_SCRIPT_VERIFY_FLAGS ⟨by decide, by decide⟩ ⟨by decide, by decide⟩
      (blockScriptFlags_relaxes false false false false) hstandard
  · refine (flags_only_restrict zeroHashes).2 _ true false false true ?_
    intro check hcheck
    rw [List.mem_singleton.1 hcheck]
    exact hstandard

end

end Script

end Coinyecoin
