import ObjcLowering.Proofs.Pools.Demand
import ObjcLowering.Proofs.Pools.FitTrees
import ObjcLowering.Proofs.Texts

/-!
What the program can allocate is counted as far as calls can be followed: calls by name, and
messages to objects whose class implements the method.
-/

namespace ObjcLowering.Pools

open Ast Relation List Text

section Types

/-- A class name that stands in a type as it is: it begins with a capital letter, and neither blanks nor
stars nor qualifiers occur in it. -/
structure IsClassName (cls : String) : Prop where
  first : ∃ c cs, cls.toList = c :: cs ∧ isUpper c = true
  solid : ∀ c ∈ cls.toList, isBlank c = false ∧ c ≠ '*'
  unqualified : ∀ q ∈ qualifiers, ¬ q.toList <:+: cls.toList

theorem foldl_replace_of_not_infix {qs : List String} (h : ∀ q ∈ qs, ¬ q.toList <:+: type.toList) :
    qs.foldl (fun t q => replace q "" t) type = type := by
  induction qs with
  | nil => rfl
  | cons q qs ih =>
    have hq : replace q "" type = type := by
      rw [Text.replace, Text.Chars.replace_of_not_infix (h q (.head _)), String.ofList_toList]
    rw [foldl_cons, hq, ih fun q hq => h q (.tail _ hq)]

theorem qualifiers_solid : ∀ q ∈ qualifiers, q.toList ≠ [] ∧ ∀ c ∈ q.toList, c ∉ [' ', '*'] := by
  have hall : qualifiers.all (fun q => !q.toList.isEmpty &&
      q.toList.all fun c => !([' ', '*'].contains c)) = true := by decide
  intro q hq
  have hq := all_eq_true.mp hall q hq
  rw [Bool.and_eq_true, Bool.not_eq_true', isEmpty_eq_false_iff, all_eq_true] at hq
  exact ⟨hq.1, fun c hc => by simpa using hq.2 c hc⟩

theorem bareType_pointer (h : IsClassName cls) : bareType (cls ++ " *") = cls ++ " *" := by
  have htext : (cls ++ " *").toList = cls.toList ++ [' ', '*'] := by simp
  have hqualifiers : ∀ q ∈ qualifiers, ¬ q.toList <:+: (cls ++ " *").toList := by
    intro q hq hinfix
    rw [htext] at hinfix
    obtain ⟨hne, hdisjoint⟩ := qualifiers_solid q hq
    exact h.unqualified q hq (Chars.infix_of_infix_append hne hdisjoint hinfix)
  obtain ⟨c, cs, hcs, -⟩ := h.first
  have hc := (h.solid c (by rw [hcs]; exact .head _)).1
  have hstar : isBlank '*' = false := by decide
  rw [bareType, foldl_replace_of_not_infix hqualifiers, trim, Chars.trim, htext, hcs,
    cons_append, Chars.trimLeft_cons hc]
  have hend : c :: (cs ++ [' ', '*']) = (cls.toList ++ [' ']) ++ ['*'] := by simp [hcs]
  rw [hend, Chars.trimRight_concat hstar, append_assoc]
  exact (congrArg String.ofList htext.symm).trans String.ofList_toList

theorem has_blank_eq_false (h : ∀ c ∈ s, isBlank c = false) : Chars.has [' '] s = false := by
  have hblank : ' ' ∉ s := fun hmem => absurd (h ' ' hmem) (by decide)
  rw [Chars.has, Chars.cut?_of_not_mem (.head _) hblank, Option.isSome_none]

theorem trim_append_blank (h : IsClassName cls) : trim (cls ++ " ") = cls := by
  have htext : (cls ++ " ").toList = cls.toList ++ [' '] := by simp
  rw [trim, htext, Chars.trim_concat (by decide),
    Chars.trim_of_forall fun c hc => (h.solid c hc).1, String.ofList_toList]

theorem dropEnd_pointer (cls : String) : dropEnd 1 (cls ++ " *") = cls ++ " " := by
  have htext : (cls ++ " *").toList = (cls ++ " ").toList ++ ['*'] := by simp
  rw [dropEnd, htext, length_append, length_singleton, Nat.add_sub_cancel,
    take_left, String.ofList_toList]

theorem classOfType_pointer (h : IsClassName cls) : classOfType (cls ++ " *") = some cls := by
  have hends : ends "*" (cls ++ " *") = true := by
    rw [ends, isSuffixOf_iff_suffix]
    exact ⟨cls.toList ++ [' '], by simp⟩
  obtain ⟨c, cs, hcs, hupper⟩ := h.first
  have hblank : has " " cls = false := has_blank_eq_false fun c hc => (h.solid c hc).1
  unfold classOfType
  simp only [bareType_pointer h, hends, if_true, dropEnd_pointer, trim_append_blank h, hcs, hupper,
    hblank, Bool.not_false, Bool.and_self]

end Types

inductive Routine
  | function (name : String)
  | method (cls selector : String)

def Routine.key : Routine → Name
  | function name => .text name
  | method cls selector => .text s!"{cls}.{selector}"

structure IsPlain (n : Node) : Prop where
  function : n.kind ≠ "FunctionDecl"
  method : n.kind ≠ "ObjCMethodDecl"
  implementation : n.kind ≠ "ObjCImplementationDecl"

/-- A node stands below a declaration, and below no other one inside it. -/
inductive Inside (d : Node) : Node → Prop
  | child : n ∈ d.inner → IsPlain n → Inside d n
  | deeper : Inside d m → n ∈ m.inner → IsPlain n → Inside d n

/-- A node belongs to the body of a routine that stands somewhere in the trees. -/
inductive InBody (roots : List Node) : Routine → Node → Prop
  | function : root ∈ roots → d ∈ root.preorder →
      d.kind = "FunctionDecl" → d.name = .text name → name ≠ "" → Inside d n →
      InBody roots (.function name) n
  | method {root impl d n : Node} {cls selector : String} : root ∈ roots → impl ∈ root.preorder →
      impl.kind = "ObjCImplementationDecl" → impl.name = .text cls → cls ≠ "" → d ∈ impl.inner →
      d.kind = "ObjCMethodDecl" → d.name = .text selector → Inside d n →
      InBody roots (.method cls selector) n

variable {function cls : Name}

theorem Inside.isPlain (h : Inside d n) : IsPlain n := by
  cases h with
  | child _ hplain => exact hplain
  | deeper _ _ hplain => exact hplain

theorem IsPlain.functionOf (h : IsPlain n) : functionOf function cls n = function := by
  simp [Pools.functionOf, isFunction, h.function, h.method]

theorem IsPlain.implementationOf (h : IsPlain n) : implementationOf cls n = cls := by
  rw [Pools.implementationOf, if_neg h.implementation]

theorem Inside.occurs_of (h : Inside d n)
    (hk : Occurs (functionOf function (implementationOf cls d) d) (implementationOf cls d) n f k) :
    Occurs function cls d f k := by
  induction h with
  | child hmem _ => exact .child hmem hk
  | deeper hm hmem _ ih =>
    refine ih (.child hmem ?_)
    rwa [hm.isPlain.implementationOf, hm.isPlain.functionOf]

theorem IsPlain.occurs_self (h : IsPlain n) : Occurs function cls n function n := by
  have hself : Occurs function cls n (Pools.functionOf function (Pools.implementationOf cls n) n) n := .self
  rwa [h.implementationOf, h.functionOf] at hself

theorem Inside.occurs (h : Inside d n)
    (hf : functionOf function (implementationOf cls d) d = f) : Occurs function cls d f n :=
  h.occurs_of (hf ▸ h.isPlain.occurs_self)

mutual

theorem exists_context : (root : Node) → d ∈ root.preorder → (function cls : Name) →
    ∃ function' cls', ∀ f k, Occurs function' cls' d f k → Occurs function cls root f k
  | .mk a ns, h, function, cls => by
    rw [Node.preorder, mem_cons] at h
    rcases h with rfl | h
    · exact ⟨function, cls, fun _ _ hk => hk⟩
    · obtain ⟨m, hm, function', cls', hcontext⟩ := exists_context_list ns h
        (functionOf function (implementationOf cls (.mk a ns)) (.mk a ns))
        (implementationOf cls (.mk a ns))
      exact ⟨function', cls', fun f k hk => .child hm (hcontext f k hk)⟩

theorem exists_context_list : (ns : List Node) → d ∈ Node.preorderList ns →
    (function cls : Name) → ∃ m ∈ ns, ∃ function' cls', ∀ f k, Occurs function' cls' d f k →
      Occurs function cls m f k
  | n :: ns, h, function, cls => by
    rw [Node.preorderList, mem_append] at h
    rcases h with h | h
    · exact ⟨n, .head _, exists_context n h function cls⟩
    · obtain ⟨m, hm, hcontext⟩ := exists_context_list ns h function cls
      exact ⟨m, .tail _ hm, hcontext⟩

end

theorem holds_text (h : s ≠ "") : Json.holds (.text s) = true := by
  simp [Json.holds, h]

theorem Routine.holds_key (h : InBody roots r n) : r.key.holds = true := by
  cases h with
  | function _ _ _ _ hname => exact holds_text hname
  | @method _ _ _ _ cls selector =>
    refine holds_text fun hempty => ?_
    have hdot := congrArg String.toList hempty
    simp [toString] at hdot

theorem functionOf_function (hkind : d.kind = "FunctionDecl") (hname : d.name = .text name)
    (hne : name ≠ "") : functionOf function cls d = .text name := by
  rw [functionOf, if_pos (by simp [isFunction, hkind, hname, holds_text hne]), hname]

theorem functionOf_method {cls selector : String} (hkind : d.kind = "ObjCMethodDecl")
    (hselector : d.name = .text selector) (hne : cls ≠ "") :
    functionOf function (implementationOf (.text cls) d) d = .text s!"{cls}.{selector}" := by
  have hcls : implementationOf (.text cls) d = .text cls := by simp [implementationOf, hkind]
  rw [hcls, functionOf, if_neg (by simp [isFunction, hkind]), if_pos (by simp [hkind, holds_text hne]),
    hselector]
  rfl

theorem implementationOf_implementation (hkind : d.kind = "ObjCImplementationDecl")
    (hname : d.name = .text name) : implementationOf cls d = .text name := by
  rw [implementationOf, if_pos hkind, hname]

theorem InBody.inFunction (h : InBody roots r n) : InFunction roots r.key n := by
  cases h with
  | function hroot hd hkind hname hne hinside =>
    obtain ⟨function, cls, hcontext⟩ := exists_context _ hd "" ""
    exact ⟨_, hroot, hcontext _ _ (hinside.occurs (functionOf_function hkind hname hne))⟩
  | method hroot himpl hkind hname hne hd hmethod hselector hinside =>
    obtain ⟨function, cls, hcontext⟩ := exists_context _ himpl "" ""
    refine ⟨_, hroot, hcontext _ _ (.child hd (hinside.occurs ?_))⟩
    rw [implementationOf_implementation hkind hname]
    exact functionOf_method hmethod hselector hne

/-- A node calls a function by its name, or sends a message to an object that has the type of a pointer
to the class of the method. -/
inductive Resolves : Node → Routine → Prop
  | call : n.kind = "CallExpr" → Designates n.inner (.text name) →
      name ≠ "" → Resolves n (.function name)
  | send {n receiver : Node} {rest : List Node} {cls selector : String} : n.kind = "ObjCMessageExpr" →
      n.receiverKind = "instance" → n.selector = .text selector → selector ≠ "" →
      n.inner = receiver :: rest → receiver.qualType = .ok (.text (cls ++ " *")) → IsClassName cls →
      Resolves n (.method cls selector)

theorem Resolves.refersTo (h : Resolves n r) : RefersTo n r.key := by
  cases h with
  | call hkind hcallee hname => exact .call hkind hcallee (holds_text hname)
  | send hkind hreceiver hselector hne hinner htype hcls =>
    have hsend := RefersTo.send hkind hreceiver (by rw [hselector]; exact holds_text hne) hinner htype
      (classOfType_pointer hcls)
    rw [hselector] at hsend
    exact hsend

def Step (roots : List Node) (r r' : Routine) : Prop := ∃ n, InBody roots r n ∧ Resolves n r'

/-- A chain of calls leads from `main` to a body in which an object of the class is made. -/
def Reached (roots : List Node) (cls : Name) : Prop :=
  ∃ r n, ReflTransGen (Step roots) (.function "main") r ∧ InBody roots r n ∧ Makes n cls

def StartsIn (roots : List Node) (f : Name) : Prop := f = .text "main" ∨ IsThread roots f

/-- References by name lead from a start of the program to a function that makes an object of the
class. -/
def Required (roots : List Node) (cls : Name) : Prop :=
  ∃ f, StartsIn roots f ∧ ∃ g, ReflTransGen (Calls roots) f g ∧ Allocates roots g cls

theorem calls_of_step (h : Step roots r r') : Calls roots r.key r'.key := by
  obtain ⟨n, hbody, hresolves⟩ := h
  exact ⟨n, hbody.inFunction, Routine.holds_key hbody, hresolves.refersTo⟩

theorem Reached.required (h : Reached roots cls) : Required roots cls := by
  obtain ⟨r, n, hchain, hbody, hmakes⟩ := h
  refine ⟨.text "main", .inl rfl, r.key, ?_, n, hbody.inFunction, Routine.holds_key hbody, hmakes⟩
  exact hchain.lift Routine.key fun _ _ => calls_of_step

def CountsClass (counts : Table Name Int) (cls : Name) : Prop := ∃ k, counts.find? cls = some k ∧ 1 ≤ k

def Analysis.counts (found : Analysis) : Except Fault (Table Name Int) :=
  poolCounts found.allocs found.calls found.threads

theorem Describes.required_iff (h : Describes found roots) :
    (∃ f, IsEntry found.threads f ∧ Needs found.allocs found.calls f cls) ↔ Required roots cls := by
  have hcalls : found.calls.Mentions = Calls roots := by
    funext f g
    exact propext (h.calls f g)
  simp only [Required, StartsIn, IsEntry, Needs, hcalls, h.allocs, h.threads]

theorem counts_of_required (h : Describes found roots) (hcls : Required roots cls) :
    ∃ counts, found.counts = .ok counts ∧ Tallies counts (Required roots) := by
  obtain ⟨f, hf⟩ := h.required_iff.mpr hcls
  obtain ⟨counts, hcounts, htallies⟩ :=
    poolCounts_of_needed h.positiveAllocs h.positiveCalls ⟨f, cls, hf⟩
  exact ⟨counts, hcounts, htallies.congr fun _ => h.required_iff⟩

theorem countsClass_iff (h : Describes found roots) (hcounts : found.counts = .ok counts) :
    CountsClass counts cls ↔ Required roots cls ∨
      ((∀ c, ¬ Required roots c) ∧ isPoolName cls = .ok true ∧ ∃ f, Allocates roots f cls) := by
  by_cases hsome : ∃ c, Required roots c
  · obtain ⟨c, hc⟩ := hsome
    obtain ⟨counts', hcounts', htallies⟩ := counts_of_required h hc
    cases hcounts.symm.trans hcounts'
    rw [CountsClass, htallies.exists_find?]
    exact ⟨.inl, fun hcls => hcls.resolve_right fun hnone => hnone.1 c hc⟩
  · have hnone : ¬ ∃ f c, IsEntry found.threads f ∧ Needs found.allocs found.calls f c := by
      rintro ⟨f, c, hf⟩
      exact hsome ⟨c, h.required_iff.mp ⟨f, hf⟩⟩
    have htallies := tallies_poolCounts_of_unneeded h.positiveAllocs h.positiveCalls hnone hcounts
    rw [CountsClass, htallies.exists_find?]
    simp only [h.allocs]
    rw [not_exists] at hsome
    exact ⟨fun hcls => .inr ⟨hsome, hcls⟩, fun hcls => (hcls.resolve_left (hsome cls)).2⟩

def callOf (name : String) : Node :=
  .bare "CallExpr" [.bare "ImplicitCastExpr" [.varRef name "void (void)"]]

def makeByObject : Node :=
  .mk { kind := "ObjCMessageExpr", receiverKind := some "instance", selector := some "make" }
    [.varRef "maker" "Maker *"]

def makeByClass : Node :=
  .mk { kind := "ObjCMessageExpr", receiverKind := some "class", selector := some "make"
        classType := .present { qual := some "Maker" } } []

def allocOf (cls : String) : Node :=
  .mk { kind := "ObjCMessageExpr", receiverKind := some "class", selector := some "alloc"
        classType := .present { qual := some (.text cls) } } []

def routineNode (kind name : String) (body : List Node) : Node :=
  .mk { kind, name := some (.text name) } [.bare "CompoundStmt" body]

/-- `setup` sends `make` to an object and calls `main` again; `make` makes an object of `Led`. -/
def makerProgram (inMain : Node) : List Node :=
  [.bare "TranslationUnitDecl"
    [.mk { kind := "ObjCImplementationDecl", name := some "Maker" }
        [routineNode "ObjCMethodDecl" "make" [allocOf "Led"]],
      routineNode "FunctionDecl" "setup" [makeByObject, callOf "main"],
      routineNode "FunctionDecl" "main" [inMain]]]

theorem inside_routineNode (hn : n ∈ body) (h : IsPlain n) : Inside (routineNode kind name body) n := by
  have hblock : IsPlain (.bare "CompoundStmt" body) :=
    ⟨(by decide : "CompoundStmt" ≠ "FunctionDecl"), (by decide : "CompoundStmt" ≠ "ObjCMethodDecl"),
      (by decide : "CompoundStmt" ≠ "ObjCImplementationDecl")⟩
  exact .deeper (.child (.head _) hblock) hn h

section

theorem inBody_main (h : IsPlain inMain) : InBody (makerProgram inMain) (.function "main") inMain :=
  .function (.head _) (Node.mem_preorder_of_inner (.tail _ (.tail _ (.head _)))) rfl rfl (by decide)
    (inside_routineNode (.head _) h)

theorem inBody_setup (h : IsPlain n) (hn : n ∈ [makeByObject, callOf "main"]) :
    InBody (makerProgram inMain) (.function "setup") n :=
  .function (.head _) (Node.mem_preorder_of_inner (.tail _ (.head _))) rfl rfl (by decide)
    (inside_routineNode hn h)

theorem inBody_make : InBody (makerProgram inMain) (.method "Maker" "make") (allocOf "Led") :=
  .method (.head _) (Node.mem_preorder_of_inner (.head _)) rfl rfl (by decide) (.head _) rfl rfl
    (inside_routineNode (.head _) ⟨by decide, by decide, by decide⟩)

theorem makes_allocOf (cls : String) (h : cls ≠ "") : Makes (allocOf cls) (.text cls) :=
  ⟨rfl, rfl, rfl, ⟨_, rfl, rfl⟩, holds_text h⟩

theorem isClassName_maker : IsClassName "Maker" := by
  have hall : "Maker".toList.all (fun c => !isBlank c && c != '*') = true := by decide +kernel
  refine ⟨⟨'M', _, rfl, by decide +kernel⟩, fun c hc => ?_, by decide +kernel⟩
  simpa using all_eq_true.mp hall c hc

theorem reached_led : Reached (makerProgram (callOf "setup")) "Led" := by
  have hmain : Step (makerProgram (callOf "setup")) (.function "main") (.function "setup") :=
    ⟨_, inBody_main ⟨by decide, by decide, by decide⟩,
      .call rfl (.cast rfl (.ref rfl rfl)) (by decide)⟩
  have hsetup : Step (makerProgram (callOf "setup")) (.function "setup") (.method "Maker" "make") :=
    ⟨makeByObject, inBody_setup ⟨by decide, by decide, by decide⟩ (.head _),
      .send rfl rfl rfl (by decide) rfl rfl isClassName_maker⟩
  exact ⟨_, _, .tail (.tail .refl hmain) hsetup, inBody_make, makes_allocOf "Led" (by decide)⟩

end

/-- Trees as a compiler writes them can be analyzed. Of what an analysis leads to, every allocation that
calls by name and messages to objects of the class itself reach from `main` is counted; and what is
counted is just what references by name reach from `main` or a thread or, when they reach nothing, what
is allocated anywhere and named for a pool. -/
theorem reached_allocations_counted (roots : List Node) :
    ((∀ n ∈ Node.preorderList roots, IsFit n) → ∃ found, analyze roots = .ok found) ∧
    ∀ found, analyze roots = .ok found →
      (∀ cls, Reached roots cls → ∃ counts, found.counts = .ok counts ∧ CountsClass counts cls) ∧
      ∀ counts, found.counts = .ok counts → ∀ cls, CountsClass counts cls ↔
        Required roots cls ∨
          ((∀ c, ¬ Required roots c) ∧ isPoolName cls = .ok true ∧ ∃ f, Allocates roots f cls) := by
  refine ⟨exists_analyze, fun found hfound => ⟨fun cls hcls => ?_, fun counts hcounts cls => ?_⟩⟩
  · obtain ⟨counts, hcounts, htallies⟩ := counts_of_required (describes_of_analyze hfound) hcls.required
    exact ⟨counts, hcounts, htallies.exists_find?.mpr hcls.required⟩
  · exact countsClass_iff (describes_of_analyze hfound) hcounts

theorem led_pool_counted : Reached (makerProgram (callOf "setup")) "Led" ∧
    ∃ found counts, analyze (makerProgram (callOf "setup")) = .ok found ∧
      found.counts = .ok counts ∧ CountsClass counts "Led" := by
  obtain ⟨hanalyzed, hcounted⟩ := reached_allocations_counted (makerProgram (callOf "setup"))
  obtain ⟨found, hfound⟩ := hanalyzed (by decide +kernel)
  obtain ⟨counts, hcounts, hled⟩ := (hcounted found hfound).1 "Led" reached_led
  exact ⟨reached_led, found, counts, hfound, hcounts, hled⟩

theorem class_message_not_followed :
    InBody (makerProgram makeByClass) (.function "main") makeByClass ∧
    makeByClass.receiverKind = "class" ∧ makeByClass.selector = "make" ∧
    (makeByClass.attrs.classType.present?.bind (·.qual)) = some "Maker" ∧
    InBody (makerProgram makeByClass) (.method "Maker" "make") (allocOf "Led") ∧
    Makes (allocOf "Led") "Led" ∧
    ∃ found counts, analyze (makerProgram makeByClass) = .ok found ∧ found.counts = .ok counts ∧
      ¬ CountsClass counts "Led" := by
  refine ⟨inBody_main ⟨by decide, by decide, by decide⟩, rfl, rfl, rfl, inBody_make,
    makes_allocOf "Led" (by decide), ?_⟩
  have hrun : ((analyze (makerProgram makeByClass) >>= Analysis.counts).toOption.map
      fun counts => counts.find? "Led") = some none := by decide +kernel
  obtain ⟨counts, hcounts, hled⟩ := toOption_map_eq_some.mp hrun
  obtain ⟨found, hfound, hcounts⟩ := bind_eq_ok.mp hcounts
  refine ⟨found, counts, hfound, hcounts, ?_⟩
  rintro ⟨k, hk, -⟩
  rw [hled] at hk
  cases hk

end ObjcLowering.Pools
