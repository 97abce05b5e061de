import MyOSKernel.FrameLookup
import MyOSKernel.MapEnumeration
import MyOSKernel.PagingSelfTest
import MyOSKernel.PagingAliasing
import MyOSKernel.PagingRefinement
import MyOSKernel.FrameRequests
import MyOSKernel.IdentityOverlap
import MyOSKernel.Bitmap
import MyOSKernel.ConsoleGrid
import MyOSKernel.SolidFill
import MyOSKernel.GlyphCell
import MyOSKernel.Itoa
import MyOSKernel.FontReads
import MyOSKernel.Acpi
import MyOSKernel.Hpet
import MyOSKernel.AsmRoutines
import MyOSKernel.StringEquality
import MyOSKernel.EnablePaging
import MyOSKernel.CpuInfo
import MyOSKernel.KernelLog
import MyOSKernel.HpetDriver
import MyOSKernel.BootMemory
import MyOSKernel.DescriptorTables
import MyOSKernel.LocalApic
