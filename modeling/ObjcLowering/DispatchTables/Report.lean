import ObjcLowering.DispatchTables.Metadata
import ObjcLowering.DispatchTables.Sizes

namespace ObjcLowering.DispatchTables

def Metadata.counts (m : Metadata) : Counts where
  classes := m.classes.length
  categories := m.categories
  protocols := m.protocols.length
  methods := m.methods
  selectors := m.selectors.length

structure Output where
  metadata : Metadata
  header : String
  init : Option String
  log : String
  deriving Inhabited, Repr

def generate (fs : Files) (sources : List String) (pools : Int) (withInit : Bool) :
    Except Fault Output := do
  if sources.isEmpty then throw .badOption
  let m ← Metadata.ofSources fs sources
  let table := sizes m.counts pools
  let selectors := sortNames m.selectors
  return {
    metadata := m
    header := headerText table
    init := if withInit then some (initText selectors) else none
    log := tableText m.counts m.maxMethods table
      ++ (if withInit then selectorListText selectors else "") }

end ObjcLowering.DispatchTables
