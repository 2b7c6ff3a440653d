import ObjcLowering.Proofs.Lowering.HoistSites

/-! Scopes of generated variables. -/

namespace ObjcLowering

open List Text

def declared (ds : List TempDecl) : List String := ds.map TempDecl.name

@[simp] theorem declared_nil : declared [] = [] := rfl

@[simp] theorem declared_cons (d : TempDecl) (ds : List TempDecl) :
    declared (d :: ds) = d.name :: declared ds := rfl

@[simp] theorem declared_append (ds es : List TempDecl) :
    declared (ds ++ es) = declared ds ++ declared es := map_append

/-- The text gives a generated variable or array of some type a value in which only variables of `D`
are mentioned. -/
def DeclaresFrom (D : List String) (d : TempDecl) : Prop :=
  ∃ type bounds value, d.text = type ++ d.name ++ bounds ++ " = " ++ value ++ ";" ∧
    Chars.closes type.toList = true ∧ tempsIn type = [] ∧ tempsIn d.name = [d.name] ∧
    (bounds = "" ∨ bounds = "[]") ∧ tempsIn value ⊆ D

theorem DeclaresFrom.tempsIn (h : DeclaresFrom D d) :
    ∃ value, tempsIn d.text = d.name :: value ∧ value ⊆ D := by
  obtain ⟨type, bounds, value, htext, hcloses, htype, hname, hbounds, hvalue⟩ := h
  refine ⟨ObjcLowering.tempsIn value, ?_, hvalue⟩
  have hfront : ObjcLowering.tempsIn (type ++ d.name) = [d.name] := by
    rw [tempsIn_append_of_closes hcloses, htype, hname, nil_append]
  rw [htext]
  rcases hbounds with rfl | rfl <;>
    simp (disch := simp; decide) [hfront]

theorem DeclaresFrom.mono (h : DeclaresFrom D d) (hDE : D ⊆ E) : DeclaresFrom E d := by
  obtain ⟨type, bounds, value, htext, hcloses, htype, hname, hbounds, hvalue⟩ := h
  exact ⟨type, bounds, value, htext, hcloses, htype, hname, hbounds, Subset.trans hvalue hDE⟩

def InOrder (D : List String) : List TempDecl → Prop
  | [] => True
  | d :: ds => DeclaresFrom D d ∧ InOrder (D ++ [d.name]) ds

theorem InOrder.append (h : InOrder D ds) (h' : InOrder (D ++ declared ds) es) :
    InOrder D (ds ++ es) := by
  induction ds generalizing D with
  | nil => simpa using h'
  | cons d ds ih => exact ⟨h.1, ih h.2 (by simpa using h')⟩

namespace Code

def declares : Code → List String
  | temp _ d => [d.name]
  | _ => []

def declaresAll (cs : List Code) : List String := cs.flatMap declares

mutual

@[simp] def InScope (D : List String) : Code → Prop
  | line _ text | label _ text | declare _ _ text => tempsIn text ⊆ D
  | temp _ d => DeclaresFrom D d
  | assign _ target value => tempsIn target ⊆ D ∧ tempsIn value ⊆ D
  | retain _ root value => tempsIn (countCall root "retain" value) ⊆ D
  | release _ root value => tempsIn (countCall root "release" value) ⊆ D
  | returns _ value => tempsIn (value.getD "") ⊆ D
  | breaks _ | continues _ => True
  | block _ body => InScopeAll D body
  | branch _ cond _ yes _ no => tempsIn cond ⊆ D ∧ InScopeAll D yes ∧ InScopeAll D no
  | whileLoop _ cond body | doLoop _ body cond | forLoop _ cond _ body | switchOn _ cond body =>
    tempsIn cond ⊆ D ∧ InScopeAll D body

def InScopeAll (D : List String) : List Code → Prop
  | [] => True
  | c :: cs => InScope D c ∧ InScopeAll (D ++ declares c) cs

end

@[simp] theorem inScopeAll_nil : InScopeAll D [] := by
  rw [InScopeAll]
  trivial

theorem inScopeAll_cons :
    InScopeAll D (c :: cs) ↔ InScope D c ∧ InScopeAll (D ++ declares c) cs := by rw [InScopeAll]

theorem inScopeAll_append :
    InScopeAll D (cs ++ cs') ↔ InScopeAll D cs ∧ InScopeAll (D ++ declaresAll cs) cs' := by
  induction cs generalizing D with
  | nil => simp [declaresAll]
  | cons c cs ih =>
    simp only [cons_append, inScopeAll_cons, ih, and_assoc, declaresAll, flatMap_cons,
      append_assoc]

mutual

theorem InScope.mono : {D E : List String} → (c : Code) → D ⊆ E → InScope D c → InScope E c
  | _, _, line _ _, h, hc | _, _, label _ _, h, hc | _, _, declare _ _ _, h, hc
  | _, _, retain _ _ _, h, hc | _, _, release _ _ _, h, hc | _, _, returns _ _, h, hc =>
    Subset.trans hc h
  | _, _, temp _ _, h, hc => DeclaresFrom.mono hc h
  | _, _, assign _ _ _, h, hc => ⟨Subset.trans hc.1 h, Subset.trans hc.2 h⟩
  | _, _, breaks _, _, hc | _, _, continues _, _, hc => hc
  | _, _, block _ body, h, hc => InScopeAll.mono body h hc
  | _, _, branch _ _ _ yes _ no, h, hc =>
    ⟨Subset.trans hc.1 h, InScopeAll.mono yes h hc.2.1, InScopeAll.mono no h hc.2.2⟩
  | _, _, whileLoop _ _ body, h, hc | _, _, doLoop _ body _, h, hc | _, _, forLoop _ _ _ body, h, hc
  | _, _, switchOn _ _ body, h, hc => ⟨Subset.trans hc.1 h, InScopeAll.mono body h hc.2⟩

theorem InScopeAll.mono : {D E : List String} → (cs : List Code) → D ⊆ E → InScopeAll D cs →
    InScopeAll E cs
  | D, E, [], _, _ => inScopeAll_nil
  | D, E, c :: cs, h, hcs => by
    rw [inScopeAll_cons] at hcs ⊢
    refine ⟨InScope.mono c h hcs.1, InScopeAll.mono cs ?_ hcs.2⟩
    exact append_subset.mpr ⟨subset_append_of_subset_left _ h, subset_append_right _ _⟩

end

/-- The first mention of a variable is its declaration, and the value that it gets there mentions only
variables of `D` and those that are mentioned before. -/
def FirstDeclared (ds : List TempDecl) (D : List String) (w text : String) : Prop :=
  ∃ d ∈ ds, d.name = w ∧ ∃ a b, text = a ++ d.text ++ b ∧ w ∉ tempsIn a ∧ DeclaresFrom (D ++ tempsIn a) d

/-- All variables that a text mentions beside those of `D` are declared where they are first mentioned. -/
def Introduces (ds : List TempDecl) (D : List String) (text : String) : Prop :=
  ∀ w ∈ tempsIn text, w ∈ D ∨ FirstDeclared ds D w text

def Broken (text : String) : Prop := text = "" ∨ Text.Chars.closes text.toList = true

theorem Broken.append (ha : Broken a) (hb : Broken b) : Broken (a ++ b) := by
  rcases hb with rfl | hb
  · rwa [String.append_empty]
  · right
    rw [String.toList_append]
    exact Chars.closes_append hb

theorem Broken.tempsIn_append (h : Broken a) (b : String) :
    tempsIn (a ++ b) = tempsIn a ++ tempsIn b := by
  rcases h with rfl | h
  · rw [String.empty_append, tempsIn_empty, nil_append]
  · exact tempsIn_append_of_closes h

theorem introduces_of_subset (h : tempsIn text ⊆ D) : Introduces ds D text := fun _ hw => .inl (h hw)

theorem Introduces.append (ha : Introduces ds D a) (hbreak : Broken a) (hN : N ⊆ tempsIn a)
    (hb : Introduces es (D ++ N) b) : Introduces (ds ++ es) D (a ++ b) := by
  intro w hw
  rw [hbreak.tempsIn_append, mem_append] at hw
  by_cases hwa : w ∈ tempsIn a
  · refine (ha w hwa).imp_right ?_
    rintro ⟨d, hd, hname, x, y, rfl, hx, hdecl⟩
    exact ⟨d, mem_append_left _ hd, hname, x, y ++ b, by simp [String.append_assoc], hx, hdecl⟩
  · rcases hb w (hw.resolve_left hwa) with hD | ⟨d, hd, hname, x, y, rfl, hx, hdecl⟩
    · left
      exact (mem_append.mp hD).resolve_right fun h => hwa (hN h)
    · right
      refine ⟨d, mem_append_right _ hd, hname, a ++ x, y, by simp [String.append_assoc], ?_, ?_⟩
      · rw [hbreak.tempsIn_append, mem_append, not_or]
        exact ⟨hwa, hx⟩
      · rw [hbreak.tempsIn_append, ← append_assoc]
        refine hdecl.mono (append_subset.mpr ⟨?_, subset_append_right _ _⟩)
        refine subset_append_of_subset_left _ (append_subset.mpr ⟨?_, ?_⟩)
        · exact subset_append_left _ _
        · exact subset_append_of_subset_right _ hN

theorem Introduces.after (h : Introduces ds D text) (hfront : tempsIn front ⊆ D)
    (hbreak : Broken front) : Introduces ds D (front ++ text) := by
  have hfront : Introduces [] D front := introduces_of_subset hfront
  rw [← append_nil D] at h
  have happend := hfront.append hbreak (nil_subset _) h
  rwa [nil_append] at happend

theorem Introduces.before (h : Introduces ds D text) (hbreak : Broken text)
    (hback : tempsIn back ⊆ D) : Introduces ds D (text ++ back) := by
  have hback : Introduces [] (D ++ []) back := introduces_of_subset (by rwa [append_nil])
  have happend := h.append hbreak (nil_subset _) hback
  rwa [append_nil] at happend

theorem broken_of_closes (h : isFixed false true m.toList = true) : Broken (a ++ m) :=
  .inr (closes_append_of_isFixed h)

theorem broken_tabs (depth : Nat) : Broken (tabs depth) := by
  cases depth with
  | zero => exact .inl rfl
  | succ depth =>
    right
    rw [tabs, String.toList_ofList, replicate_succ']
    exact Chars.closes_append (by decide)

@[simp] theorem tempsIn_tabs (depth : Nat) : tempsIn (tabs depth) = [] := by
  have hword : ∀ w ∈ wordsFrom [] (replicate depth '\t'), w = "" := by
    induction depth with
    | zero => simp [wordsFrom]
    | succ depth ih =>
      rw [replicate_succ, wordsFrom, isWord_of_isBreak (by decide)]
      exact forall_mem_cons.mpr ⟨rfl, ih⟩
  rw [tempsIn, words, tabs, String.toList_ofList]
  refine filter_eq_nil_iff.mpr fun w hw => ?_
  rw [hword w hw, isTemp_empty]
  decide

@[simp] theorem tempsIn_tabs_append (depth : Nat) (text : String) :
    tempsIn (tabs depth ++ text) = tempsIn text := by
  rw [(broken_tabs depth).tempsIn_append, tempsIn_tabs, nil_append]

@[simp] theorem tempsIn_closeBrace (depth : Nat) : tempsIn (closeBrace depth) = [] := by
  rw [closeBrace, tempsIn_tabs_append]
  exact tempsIn_fixed (isFixed_literal rfl rfl)

theorem broken_closeBrace : Broken (a ++ closeBrace depth) := by
  rw [closeBrace, ← String.append_assoc]
  exact broken_of_closes (isFixed_literal rfl rfl)

theorem broken_partText (h : Broken text) : Broken (partText depth form text) := by
  cases form with
  | absent => exact .inl rfl
  | braced => exact broken_closeBrace
  | chained => exact h

mutual

theorem broken_render : (c : Code) → Broken (render c)
  | line _ _ | temp _ _ | declare _ _ _ | assign _ _ _ | retain _ _ _ | release _ _ _ | returns _ none
  | returns _ (some _) | breaks _ | continues _ | label _ _ | doLoop _ _ _ => by
    rw [render]
    exact broken_of_closes (isFixed_literal rfl rfl)
  | block _ _ | whileLoop _ _ _ | switchOn _ _ _ => by
    rw [render]
    exact broken_closeBrace
  | branch d cond yesForm yes noForm no => by
    rw [render]
    refine Broken.append (Broken.append (broken_of_closes (isFixed_literal rfl rfl))
      (broken_partText (broken_renderAll yes))) ?_
    split
    · exact .inl rfl
    · exact Broken.append (broken_of_closes (isFixed_literal rfl rfl))
        (broken_partText (broken_renderAll no))
  | forLoop d head form body => by
    rw [render]
    refine Broken.append (broken_of_closes (isFixed_literal rfl rfl)) ?_
    split
    · exact .inr (by decide)
    · exact broken_partText (broken_renderAll body)

theorem broken_renderAll : (cs : List Code) → Broken (renderAll cs)
  | [] => by
    rw [renderAll]
    exact .inl rfl
  | c :: cs => by
    rw [renderAll]
    exact (broken_render c).append (broken_renderAll cs)

end

theorem introduces_partText (h : Introduces ds D text) (hbreak : Broken text) :
    Introduces ds D (partText depth form text) := by
  cases form with
  | absent => exact introduces_of_subset (by simp [partText])
  | braced =>
    have hopen : Broken openBrace := .inr (by decide)
    refine (h.after ?_ hopen).before (hopen.append hbreak) (by simp)
    simp (disch := simp; decide) [openBrace]
  | chained => exact h

mutual

theorem introduces_render : {D : List String} → (c : Code) → InScope D c →
    Introduces (tempDecls c) D (render c)
  | D, line _ _, h | D, label _ _, h | D, declare _ _ _, h | D, assign _ _ _, h | D, retain _ _ _, h
  | D, release _ _ _, h | D, returns _ (some _), h => by
    rw [InScope] at h
    rw [render]
    apply introduces_of_subset
    simpa (disch := simp; decide) using h
  | D, returns _ none, h | D, breaks _, h | D, continues _, h => by
    rw [render]
    apply introduces_of_subset
    simp (disch := simp; decide)
  | D, temp depth d, h => by
    rw [InScope] at h
    obtain ⟨value, htext, hvalue⟩ := h.tempsIn
    rw [render, tempDecls]
    intro w hw
    simp (disch := simp; decide) only [tempsIn_append_fixed, tempsIn_tabs_append,
      htext, mem_cons] at hw
    rcases hw with rfl | hw
    · exact .inr ⟨d, by simp, rfl, _, _, rfl, by simp, h.mono (subset_append_left _ _)⟩
    · exact .inl (hvalue hw)
  | D, block d body, h => by
    rw [InScope] at h
    rw [render, tempDecls]
    have hfront : Broken (tabs d ++ openBrace) := broken_of_closes (isFixed_literal rfl rfl)
    refine ((introduces_renderAll body h).after ?_ hfront).before (hfront.append (broken_renderAll body))
      (by simp)
    simp (disch := simp; decide) [openBrace]
  | D, branch d cond yesForm yes noForm no, h => by
    rw [InScope] at h
    rw [render, tempDecls]
    have hfront : Broken (tabs d ++ "if (" ++ cond ++ ") ") :=
      broken_of_closes (isFixed_literal rfl rfl)
    have hyes : Introduces (tempDeclsAll yes) D (partText d yesForm (renderAll yes)) :=
      introduces_partText (introduces_renderAll yes h.2.1) (broken_renderAll yes)
    have hno : Introduces (tempDeclsAll no) D (partText d noForm (renderAll no)) :=
      introduces_partText (introduces_renderAll no h.2.2) (broken_renderAll no)
    have hcond : tempsIn (tabs d ++ "if (" ++ cond ++ ") ") ⊆ D := by
      simpa (disch := simp; decide) using h.1
    refine (hyes.after hcond hfront).append (hfront.append (broken_partText (broken_renderAll yes)))
      (N := []) (nil_subset _) ?_
    rw [append_nil]
    split
    · exact introduces_of_subset (by simp)
    · refine hno.after ?_ (broken_of_closes (isFixed_literal rfl rfl))
      simp (disch := simp; decide)
  | D, whileLoop d cond body, h | D, switchOn d cond body, h => by
    rw [InScope] at h
    rw [render, tempDecls]
    have hfront : ∀ front, Broken (front ++ openBrace) := fun _ =>
      broken_of_closes (isFixed_literal rfl rfl)
    refine ((introduces_renderAll body h.2).after ?_ (hfront _)).before
      ((hfront _).append (broken_renderAll body)) (by simp)
    simpa (disch := simp; decide) [openBrace] using h.1
  | D, doLoop d body cond, h => by
    rw [InScope] at h
    rw [render, tempDecls]
    have hfront : Broken (tabs d ++ "do " ++ openBrace) :=
      broken_of_closes (isFixed_literal rfl rfl)
    have hopen : tempsIn (tabs d ++ "do " ++ openBrace) ⊆ D := by
      simp (disch := simp; decide) [openBrace]
    have hbody := (introduces_renderAll body h.2).after hopen hfront
    have hclose : Broken ("" ++ closeBrace d) := broken_closeBrace
    rw [String.empty_append] at hclose
    have hback : tempsIn (closeBrace d ++ (tabs d ++ ("while (" ++ cond ++ ");\n"))) ⊆ D := by
      rw [hclose.tempsIn_append]
      simpa (disch := simp; decide) using h.1
    have hwhole := hbody.before (hfront.append (broken_renderAll body)) hback
    simpa only [String.append_assoc] using hwhole
  | D, forLoop d head form body, h => by
    rw [InScope] at h
    rw [render, tempDecls]
    have hhead : tempsIn (tabs d ++ "for (" ++ head ++ ") ") ⊆ D := by
      simpa (disch := simp; decide) using h.1
    refine Introduces.after ?_ hhead (broken_of_closes (isFixed_literal rfl rfl))
    split
    · apply introduces_of_subset
      simp (disch := simp; decide)
    · exact introduces_partText (introduces_renderAll body h.2) (broken_renderAll body)

theorem introduces_renderAll : {D : List String} → (cs : List Code) → InScopeAll D cs →
    Introduces (tempDeclsAll cs) D (renderAll cs)
  | D, [], _ => by
    rw [renderAll]
    exact introduces_of_subset (by simp)
  | D, c :: cs, h => by
    rw [inScopeAll_cons] at h
    rw [renderAll, tempDeclsAll]
    refine (introduces_render c h.1).append (broken_render c) ?_ (introduces_renderAll cs h.2)
    cases c <;> try exact nil_subset _
    next depth d =>
      have hd := h.1
      rw [InScope] at hd
      obtain ⟨value, htext, -⟩ := hd.tempsIn
      rw [render]
      simp (disch := simp; decide) [declares, htext]

end

end Code

end ObjcLowering
