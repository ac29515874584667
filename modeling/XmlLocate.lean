import XmlLocate.Document.Cursor
import XmlLocate.Main
import XmlLocate.Proofs.InertBodies
import XmlLocate.Proofs.JsonForms
import XmlLocate.Proofs.LinePlaces
import XmlLocate.Proofs.OutputLines
import XmlLocate.Proofs.Places
import XmlLocate.Proofs.RoundTrip
import XmlLocate.Proofs.ScannerProgress
import XmlLocate.Proofs.SelfClosing
import XmlLocate.Proofs.TreesInPlace
import XmlLocate.Proofs.Truncation
