import AblResolve.Catalog.Basic
/-!
The catalog of a small sporting-goods shop, for examples.
-/
namespace AblResolve.Catalog.Sample

def customer : Table where
  name := "Customer"
  fields := [
    ⟨"CustNum", .integer, 0⟩, ⟨"Name", .character, 0⟩, ⟨"Address", .character, 0⟩,
    ⟨"City", .character, 0⟩, ⟨"Country", .character, 0⟩, ⟨"Balance", .decimal, 0⟩,
    ⟨"CreditLimit", .decimal, 0⟩, ⟨"SalesRep", .character, 0⟩, ⟨"Comments", .character, 0⟩]
  indexes := [
    ⟨"CustNum", ["CustNum"], true, true, false⟩, ⟨"Name", ["Name"], false, false, false⟩,
    ⟨"Comments", ["Comments"], false, false, true⟩]

def order : Table where
  name := "Order"
  fields := [
    ⟨"OrderNum", .integer, 0⟩, ⟨"CustNum", .integer, 0⟩, ⟨"OrderDate", .date, 0⟩,
    ⟨"ShipDate", .date, 0⟩, ⟨"SalesRep", .character, 0⟩]
  indexes := [
    ⟨"OrderNum", ["OrderNum"], true, true, false⟩,
    ⟨"CustOrder", ["CustNum", "OrderNum"], true, false, false⟩]

def orderLine : Table where
  name := "OrderLine"
  fields := [
    ⟨"OrderNum", .integer, 0⟩, ⟨"LineNum", .integer, 0⟩, ⟨"ItemNum", .integer, 0⟩,
    ⟨"Price", .decimal, 0⟩, ⟨"Qty", .integer, 0⟩]
  indexes := [⟨"OrderLine", ["OrderNum", "LineNum"], true, true, false⟩]

def item : Table where
  name := "Item"
  fields := [
    ⟨"ItemNum", .integer, 0⟩, ⟨"ItemName", .character, 0⟩, ⟨"Price", .decimal, 0⟩,
    ⟨"MonthlyQty", .integer, 12⟩]
  indexes := [⟨"ItemNum", ["ItemNum"], true, true, false⟩]

def salesRep : Table where
  name := "SalesRep"
  fields := [⟨"SalesRep", .character, 0⟩, ⟨"RepName", .character, 0⟩]
  indexes := [⟨"SalesRep", ["SalesRep"], true, true, false⟩]

def sports : Catalog where
  databases := [⟨"sports", [customer, order, orderLine, item, salesRep]⟩]

end AblResolve.Catalog.Sample
