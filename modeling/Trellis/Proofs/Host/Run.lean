import Trellis.Host.Patch

/-!
# Runs on the host

A run that may fail half way is a function from a state to a result and a state. The equations here
open such a run one step at a time; with them a single change to the host is read off its
definition (`Host.require_apply`, `Host.setAttr_apply`, ...).

Hosts are compared through `Host.get?`: what a handle stands for. The log takes no part in that.
-/

namespace Trellis

namespace Run

variable {σ α β : Type}

/-! ## 1. Steps of a run -/

@[simp] theorem pure_apply (a : α) (s : σ) :
    (pure a : ExceptT HostError (StateM σ) α) s = (.ok a, s) := rfl

@[simp] theorem bind_apply (act : ExceptT HostError (StateM σ) α)
    (f : α → ExceptT HostError (StateM σ) β) (s : σ) :
    (act >>= f) s =
      match act s with
      | (.ok a, s') => f a s'
      | (.error e, s') => (.error e, s') := by
  show (match act s with | (r, s') => ExceptT.bindCont f r s') = _
  rcases act s with ⟨r, s'⟩
  cases r <;> rfl

@[simp] theorem get_apply (s : σ) : (get : ExceptT HostError (StateM σ) σ) s = (.ok s, s) := rfl

@[simp] theorem modify_apply (f : σ → σ) (s : σ) :
    (modify f : ExceptT HostError (StateM σ) Unit) s = (.ok (), f s) := rfl

@[simp] theorem throw_apply (e : HostError) (s : σ) :
    (throw e : ExceptT HostError (StateM σ) α) s = (.error e, s) := rfl

/-- A run whose first part ends well goes on with the rest. -/
theorem bind_ok {act : ExceptT HostError (StateM σ) α} {f : α → ExceptT HostError (StateM σ) β}
    {s s' : σ} {a : α} (h : act s = (.ok a, s')) : (act >>= f) s = f a s' := by
  rw [bind_apply, h]

end Run

namespace Host

/-! ## 2. What a handle stands for -/

@[simp] theorem get?_log (h : Host) (log : List Mutation) (n : Handle) :
    { h with log }.get? n = h.get? n := rfl

theorem get?_eq (h : Host) (n : Handle) : h.get? n = h.nodes[n]?.join := by
  rw [get?, Array.getD_eq_getD_getElem?]
  cases h.nodes[n]? <;> rfl

theorem get?_update (h : Host) (n m : Handle) (f : HostNode → HostNode) :
    (h.update n f).get? m = if m = n then (h.get? m).map f else h.get? m := by
  rw [get?_eq, get?_eq, update, Array.getElem?_modify]
  by_cases e : n = m
  · subst e
    rw [if_pos rfl, if_pos rfl]
    cases h.nodes[n]? with
    | none => rfl
    | some nd? => cases nd? <;> rfl
  · rw [if_neg e, if_neg (Ne.symm e)]

@[simp] theorem size_update (h : Host) (n : Handle) (f : HostNode → HostNode) :
    (h.update n f).nodes.size = h.nodes.size := by
  rw [update, Array.size_modify]

theorem get?_forget (h : Host) (n m : Handle) :
    (h.forget n).get? m = if m = n then none else h.get? m := by
  rw [get?_eq, get?_eq, forget, Array.getElem?_modify]
  by_cases e : n = m
  · subst e
    rw [if_pos rfl, if_pos rfl]
    cases h.nodes[n]? <;> rfl
  · rw [if_neg e, if_neg (Ne.symm e)]

@[simp] theorem size_forget (h : Host) (n : Handle) : (h.forget n).nodes.size = h.nodes.size := by
  rw [forget, Array.size_modify]

theorem get?_eq_none_of_le {h : Host} {n : Handle} (hn : h.nodes.size ≤ n) : h.get? n = none := by
  rw [get?_eq, Array.getElem?_eq_none hn]
  rfl

theorem lt_size_of_get? {h : Host} {n : Handle} {nd : HostNode} (hn : h.get? n = some nd) :
    n < h.nodes.size := by
  rcases Nat.lt_or_ge n h.nodes.size with hlt | hge
  · exact hlt
  · rw [get?_eq_none_of_le hge] at hn
    cases hn

theorem children_of_get? {h : Host} {n : Handle} {nd : HostNode} (hn : h.get? n = some nd) :
    h.children n = nd.children := by
  rw [children, hn]

theorem parent?_of_get? {h : Host} {n : Handle} {nd : HostNode} (hn : h.get? n = some nd) :
    h.parent? n = nd.parent := by
  rw [parent?, hn]
  rfl

/-! ## 3. Single operations -/

theorem require_apply {h : Host} {n : Handle} {nd : HostNode} (hn : h.get? n = some nd) :
    require n h = (.ok nd, h) := by
  simp [require, hn]

theorem require_none {h : Host} {n : Handle} (hn : h.get? n = none) :
    require n h = (.error (.unknownNode n), h) := by
  simp [require, hn]

@[simp] theorem record_apply (m : Mutation) (h : Host) :
    record m h = (.ok (), { h with log := m :: h.log }) := rfl

theorem create_apply (content : Content) (h : Host) :
    create content h = (.ok h.nodes.size,
      { nodes := h.nodes.push (some (HostNode.bare content)), log := .create h.nodes.size :: h.log }) := rfl

theorem get?_push (h : Host) (nd : HostNode) (log : List Mutation) (m : Handle) :
    ({ nodes := h.nodes.push (some nd), log } : Host).get? m =
      if m = h.nodes.size then some nd else h.get? m := by
  rw [get?_eq, get?_eq, Array.getElem?_push]
  split
  · rfl
  · rfl

theorem setAttr_apply {h : Host} {n : Handle} {nd : HostNode} (hn : h.get? n = some nd) (name : String)
    (v : Value) :
    setAttr n name v h = (.ok (),
      { h.update n fun nd => { nd with attrs := Attrs.set nd.attrs name v } with
        log := .setAttr n name :: h.log }) := by
  simp [setAttr, require_apply hn]
  rfl

theorem removeAttr_apply {h : Host} {n : Handle} {nd : HostNode} (hn : h.get? n = some nd)
    (name : String) :
    removeAttr n name h = (.ok (),
      { h.update n fun nd => { nd with attrs := Attrs.remove nd.attrs name } with
        log := .removeAttr n name :: h.log }) := by
  simp [removeAttr, require_apply hn]
  rfl

theorem listen_apply {h : Host} {n : Handle} {nd : HostNode} (hn : h.get? n = some nd) (b : Binding) :
    listen n b h = (.ok (),
      { h.update n fun nd => { nd with listeners := nd.listeners ++ [b] } with
        log := .listen n b.name :: h.log }) := by
  simp [listen, require_apply hn]
  rfl

theorem unlisten_apply {h : Host} {n : Handle} {nd : HostNode} (hn : h.get? n = some nd) (b : Binding) :
    unlisten n b h = (.ok (),
      { h.update n fun nd => { nd with listeners := nd.listeners.erase b } with
        log := .unlisten n b.name :: h.log }) := by
  simp [unlisten, require_apply hn]
  rfl

end Host

end Trellis
